import MiniForth.Main
import MiniForth.Proofs.Turns
import MiniForth.Proofs.Frame
import MiniForth.Proofs.Refinement
import MiniForth.Proofs.Interpreter
import MiniForth.Proofs.Reachability
import MiniForth.Proofs.CallDiscipline
import MiniForth.Proofs.Growth
import MiniForth.Proofs.Ordinary
import MiniForth.Proofs.Tokens
import MiniForth.Proofs.Mirror
import MiniForth.Proofs.CompileThenCall
import MiniForth.Proofs.Writes
import MiniForth.Proofs.AppendOnly
import MiniForth.Proofs.Depth
import MiniForth.Proofs.Nesting
import MiniForth.Proofs.Redefinition
import MiniForth.Proofs.Performing
import MiniForth.Proofs.Surroundings
import MiniForth.Proofs.Underneath
import MiniForth.Proofs.Splitting
import MiniForth.Proofs.FirstFailure
import MiniForth.Proofs.FailingWord
import MiniForth.Proofs.Confined
import MiniForth.Proofs.Brackets
import MiniForth.Proofs.Unnamed
import MiniForth.Proofs.Moments
import MiniForth.Proofs.Gapless
import MiniForth.Proofs.Identity
import MiniForth.Proofs.Naming
import MiniForth.Proofs.ControlWords
import MiniForth.Proofs.Spelling
import MiniForth.Proofs.Runs
import MiniForth.Proofs.TypingBack
import MiniForth.Proofs.Sums
import MiniForth.Proofs.VisibleNames
import MiniForth.Proofs.Listings
import MiniForth.Proofs.ListedCode
import MiniForth.Proofs.Responses
import MiniForth.Proofs.Addressing
import MiniForth.Proofs.LookingAhead
import MiniForth.Proofs.Conversation
