import MiniForth.Session.Call
import MiniForth.Session.Response
import MiniForth.Text.Token

/-!
# Lines

How a session processes what the user types. The tokens of a line are taken one after the other, and
each is named, skipped, pushed, compiled or executed, as the state of the session has it. The first
failure ends the line; what was done before it stays done.

A control word that is executed at the top level has no code to act on. It acts on the next token of
the line instead, and what it has in store is forgotten at the end of the line.

Every call of a line has `fuel` turns. Where one of them does not end within these, the line has no
result.
-/

namespace MiniForth

/-- Carries out at the top level what a primitive asks for. -/
def Flow.onTokens : Flow → Action Unit
  | next    => pure ()
  | skip    => modify ({ · with pending := .skip })
  | literal => modify ({ · with pending := .literal })
  | exit    => Action.leave

/-- Runs a primitive at the top level. -/
def Primitive.performOnTokens (operation : Primitive) : Action Unit := do
  let flow ← operation.perform
  flow.onTokens

namespace Session

/-- Executes the word at an index on behalf of the top level. -/
def execute? (fuel : Nat) (s : Session) (index : Nat) : Option (Outcome Unit) :=
  match (s.dictionary.get? index).map Word.behavior with
  | none                        => some (Action.fail (.noSuchIndex index) s)
  | some (.primitive operation) => some (operation.performOnTokens s)
  | some (.compiled entry)      => s.run? fuel entry

/-- Pushes a token that has to be a number. -/
def pushNumber (t : Token) : Action Unit :=
  match t.number? with
  | some value => modify (·.push value)
  | none       => Action.fail (.notANumber t.text)

/-- Processes a token that names no word: a number is compiled or pushed. -/
def takeNumber (t : Token) : Action Unit :=
  match t.number? with
  | some value =>
    modify fun s => if s.mode = .compile then s.compileNumber value else s.push value
  | none       => Action.fail (.unknownWord t.text)

/-- Processes a token by looking it up. -/
def lookUp? (fuel : Nat) (s : Session) (t : Token) : Option (Outcome Unit) :=
  match s.dictionary.find? t.text with
  | none => some (takeNumber t s)
  | some (index, word) =>
    if s.mode = .compile ∧ word.immediate = false then some (.ok () (s.compileWord index))
    else s.execute? fuel index

/-- Processes a token. A definition that waits for its name takes any token; otherwise a pending
action comes before the lookup. -/
def interpret? (fuel : Nat) (s : Session) (t : Token) : Option (Outcome Unit) :=
  if s.phase = .awaitingName then some (.ok () (s.nameDefinition t.text))
  else
    let rest := { s with pending := .nothing }
    match s.pending with
    | .nothing => rest.lookUp? fuel t
    | .skip    => some (.ok () rest)
    | .literal => some (pushNumber t rest)

/-- Processes the tokens of a line up to the first failure. -/
def interpretAll? (fuel : Nat) : Session → List Token → Option (Outcome Unit)
  | s, []      => some (.ok () s)
  | s, t :: ts =>
    match interpret? fuel { s with location := some t.location } t with
    | some (.ok () s)   => interpretAll? fuel s ts
    | some (.error f s) => some (.error (f.withLocation s.location) s)
    | none              => none

/-- The name under which the locations of a session's lines are given. -/
def source : String := "<repl>"

/-- The session at the start of its next line. -/
def startLine (s : Session) : Session :=
  { s with output := "", background := none, pending := .nothing, lines := s.lines + 1 }

/-- The session at the end of a line. -/
def endLine (s : Session) : Session :=
  { s with output := "", background := none, pending := .nothing, location := none }

/-- The response to a line, with the session it leaves. -/
def respond : Outcome Unit → Response × Session
  | .ok () s   => ({ output := s.output, failure := none, background := s.background }, s.endLine)
  | .error f s => ({ output := s.output, failure := some f, background := s.background }, s.endLine)

/-- Processes a line. -/
def process? (fuel : Nat) (s : Session) (line : String) : Option (Response × Session) :=
  (interpretAll? fuel s.startLine (Token.ofLine source s.startLine.lines line)).map respond

end Session

end MiniForth
