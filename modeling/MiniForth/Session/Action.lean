import MiniForth.Failure
import MiniForth.Session.State

/-!
# Actions

An `Action` changes a session and either answers with a value or fails. A failure keeps the session
as it was at that moment: nothing is rolled back. It carries the location of the token that is being
processed.

This file holds the steps that can fail and, in `Primitive.perform`, the effect of every primitive.
-/

namespace MiniForth

/-- A computation on a session that can fail. -/
abbrev Action (α : Type) := EStateM Failure Session α

/-- The result of an action: an answer or a failure, each with the session it leaves. -/
abbrev Outcome (α : Type) := EStateM.Result Failure Session α

namespace Action

/-- Fails at the token that is being processed. -/
def fail {α : Type} (cause : Cause) : Action α := fun s => .error (.ofCause s.location cause) s

/-- Takes the topmost cell off the parameter stack. -/
def pop : Action Cell := fun s =>
  match s.stack.pop with
  | .ok value stack => .ok value { s with stack }
  | .error f stack  => .error (f.withLocation s.location) { s with stack }

/-- Fails unless the parameter stack holds at least `count` cells. -/
def requireDepth (count : Nat) : Action Unit := do
  let found := (← get).stack.size
  if found < count then fail (.tooFewCells count found)

/-- Reads the cell of code under the cursor and moves past it. -/
def fetch : Action Cell := fun s =>
  match s.code.get? s.cursor with
  | some cell => .ok cell s.skipCell
  | none      => fail (.outsideCode s.cursor) s

/-- Returns from the innermost call. -/
def leave : Action Unit := fun s =>
  match s.returns with
  | []     => fail .emptyStack s
  | _ :: _ => .ok () s.retreat

/-- Starts a definition, which is refused in compile mode. -/
def beginDefinition : Action Unit := do
  if (← get).mode = .compile then fail .nestedColon
  modify Session.openDefinition

/-- Ends a definition. Outside compile mode that is a failure, but only after it has been done. -/
def endDefinition : Action Unit := do
  let mode := (← get).mode
  modify Session.closeDefinition
  if mode = .immediate then fail .unexpectedSemicolon

/-- Replaces the two topmost cells by their sum. With fewer cells the stack stays as it is. -/
def add : Action Unit := do
  requireDepth 2
  let b ← pop
  let a ← pop
  modify (·.push (a + b))

/-- Doubles the topmost cell. -/
def dup : Action Unit := do
  let value ← pop
  modify fun s => (s.push value).push value

end Action

/-- The effect of a primitive. What it asks of the flow of control is answered, not carried out. -/
def Primitive.perform : Primitive → Action Flow
  | exit         => pure .exit
  | literal      => pure .literal
  | branch       => pure .skip
  | zeroBranch   => do
    let flag ← Action.pop
    return if flag = 0 then .skip else .next
  | leftBracket  => do modify ({ · with mode := .immediate }); return .next
  | rightBracket => do modify ({ · with mode := .compile }); return .next
  | hide         => do modify Session.hideLast; return .next
  | reveal       => do modify Session.revealLast; return .next
  | colon        => do Action.beginDefinition; return .next
  | semicolon    => do Action.endDefinition; return .next
  | printStack   => do modify fun s => s.emit s.stackText; return .next
  | print        => do
    let value ← Action.pop
    modify (·.emit value.text)
    return .next
  | add          => do Action.add; return .next
  | dup          => do Action.dup; return .next
  | words        => do
    modify fun s => s.emit (" ".intercalate s.dictionary.visibleNames)
    return .next
  | background   => do
    let colour ← Action.pop
    modify (·.paint colour)
    return .next

end MiniForth
