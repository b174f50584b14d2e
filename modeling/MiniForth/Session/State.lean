import MiniForth.Stack
import MiniForth.Text.Location
import MiniForth.Vocabulary

/-!
# The state of a session

A session lives over many lines of input. It owns the parameter stack, the return addresses of the
calls that are running, code memory with its cursor, and the dictionary.

The cursor has two uses. Between calls it is the address that is compiled to next; while a call runs
it is the address that is executed next. A call saves it as its first return address and puts it back
at its end.

The functions of this file change a session and cannot fail; those that can are in
`MiniForth.Session.Action`.
-/

namespace MiniForth

/-- Whether words are executed or compiled. -/
inductive Mode where
  | immediate
  | compile
  deriving DecidableEq, Inhabited, Repr

/-- The mode in words. -/
def Mode.text : Mode → String
  | .immediate => "immediate"
  | .compile   => "compile"

/-- How far a definition has got. -/
inductive Phase where
  /-- No definition is open. -/
  | idle
  /-- A definition was started, and the next token is its name. -/
  | awaitingName
  /-- A definition with a name is open. -/
  | compiling
  deriving DecidableEq, Inhabited, Repr

/-- The phase in words. -/
def Phase.text : Phase → String
  | .idle         => "idle"
  | .awaitingName => "awaiting name"
  | .compiling    => "compiling"

/-- What a control word at the top level has in store for the next token. -/
inductive Pending where
  | nothing
  /-- The token is passed over. -/
  | skip
  /-- The token is pushed as a number. -/
  | literal
  deriving DecidableEq, Inhabited, Repr

/-- A session. -/
structure Session where
  /-- The parameter stack. -/
  stack      : Stack Cell := .empty
  /-- The return addresses of the running calls, innermost call first. -/
  returns    : List Nat := []
  /-- Code memory. -/
  code       : Stack Cell := .empty
  /-- The address to compile to or to execute next. -/
  cursor     : Nat := 0
  dictionary : Dictionary := Vocabulary.dictionary
  mode       : Mode := .immediate
  phase      : Phase := .idle
  /-- Where the token that is being processed stands. -/
  location   : Option Location := none
  /-- How many lines were processed. -/
  lines      : Nat := 0
  /-- What the current line has printed. -/
  output     : String := ""
  /-- The background colour that the current line has chosen. -/
  background : Option Cell := none
  pending    : Pending := .nothing
  deriving DecidableEq, Repr

namespace Session

/-- A session in which nothing has happened yet. -/
def initial : Session := {}

instance : Inhabited Session := ⟨initial⟩

/-! ## The parameter stack and what words leave for the user -/

/-- Pushes a cell on the parameter stack. -/
def push (s : Session) (value : Cell) : Session := { s with stack := s.stack.push value }

/-- Adds a text to the output, after a space if there is output already. -/
def emit (s : Session) (text : String) : Session :=
  { s with output := if s.output.isEmpty then text else s.output ++ " " ++ text }

/-- Chooses a background colour. -/
def paint (s : Session) (colour : Cell) : Session := { s with background := some colour }

/-- The parameter stack as the user sees it: its depth in angle brackets, then its cells from the
bottom up. -/
def stackText (s : Session) : String :=
  "<" ++ Decimal.ofNat s.stack.size ++ ">" ++
    if s.stack.isEmpty then "" else " " ++ Cell.rowText s.stack.toList

/-! ## Compiling -/

/-- Writes a cell to code memory under the cursor and moves past it. -/
def compile (s : Session) (cell : Cell) : Session :=
  { s with code := s.code.poke s.cursor cell, cursor := s.cursor + 1 }

/-- Compiles a call of the word at an index. -/
def compileWord (s : Session) (index : Nat) : Session := s.compile (Cell.ofIndex index)

/-- Compiles the push of a number. -/
def compileNumber (s : Session) (value : Cell) : Session :=
  (s.compileWord Vocabulary.literalIndex).compile value

/-- Starts a definition: a hidden word without a name, whose code begins under the cursor. -/
def openDefinition (s : Session) : Session :=
  { s with
    dictionary := s.dictionary.add { name := "", hidden := true, behavior := .compiled s.cursor }
    mode       := .compile
    phase      := .awaitingName }

/-- Gives the started definition its name. -/
def nameDefinition (s : Session) (name : String) : Session :=
  { s with
    dictionary := (s.dictionary.nameLast? name).getD s.dictionary
    phase      := .compiling }

/-- Makes the newest word visible. -/
def revealLast (s : Session) : Session :=
  { s with dictionary := s.dictionary.revealLast?.getD s.dictionary }

/-- Hides the newest word. -/
def hideLast (s : Session) : Session :=
  { s with dictionary := s.dictionary.hideLast?.getD s.dictionary }

/-- Ends a definition: its code returns, and the word becomes visible. -/
def closeDefinition (s : Session) : Session :=
  { (s.compileWord Vocabulary.exitIndex).revealLast with mode := .immediate, phase := .idle }

/-! ## Calls -/

/-- Enters the code at an address; execution goes on under the cursor afterwards. -/
def enter (s : Session) (entry : Nat) : Session :=
  { s with returns := s.cursor :: s.returns, cursor := entry }

/-- Passes over the cell under the cursor. -/
def skipCell (s : Session) : Session := { s with cursor := s.cursor + 1 }

/-- Goes back to the caller of the innermost call, if one is running. -/
def retreat (s : Session) : Session :=
  match s.returns with
  | []              => s
  | resume :: outer => { s with cursor := resume, returns := outer }

/-- Gives up all running calls. The cursor is where the outermost of them found it. -/
def abandon (s : Session) : Session :=
  { s with cursor := s.returns.getLast?.getD s.cursor, returns := [] }

end Session

end MiniForth
