import MiniForth.Session.Action

/-!
# Calls

How compiled code runs. Each turn dispatches one cell: the cell under the cursor is fetched and
resolved to a word, and the word is carried out. A compiled word is entered, and its end returns to
the cell after the one that called it, so calls within calls need only the list of return addresses.

A call of the top level is over when that list is empty again. On the way there a memory fault gives
up the innermost call and its caller goes on; any other failure gives up all calls at once. Either
way the first failure is what the call reports.

Code need not come to an end, and so a call runs on *fuel*: `finish?` allows a number of turns and
answers `none` when they do not suffice.
-/

namespace MiniForth

/-- Carries out on code memory what a primitive asks for. -/
def Flow.onCode : Flow → Action Unit
  | next    => pure ()
  | skip    => modify Session.skipCell
  | literal => do
    let value ← Action.fetch
    modify (·.push value)
  | exit    => Action.leave

/-- Carries out the cell under the cursor. -/
def dispatch : Action Unit := do
  let address := (← get).cursor
  let cell ← Action.fetch
  match ((← get).dictionary.resolve? cell).map Word.behavior with
  | none                        => Action.fail (.notAWord cell address)
  | some (.compiled entry)      => modify (·.enter entry)
  | some (.primitive operation) => do
    let flow ← operation.perform
    flow.onCode

/-- A running call of the top level. -/
structure Call where
  session : Session
  /-- The first failure so far. -/
  failure : Option Failure := none
  deriving DecidableEq, Repr

namespace Call

/-- The call of the code at `entry`. -/
def start (s : Session) (entry : Nat) : Call := { session := s.enter entry }

/-- Has the call returned to the top level? -/
def isOver (c : Call) : Bool := c.session.returns.isEmpty

/-- One turn: dispatches a cell, and after a failure gives up the innermost call or all calls. -/
def turn (c : Call) : Call :=
  match dispatch c.session with
  | .ok () s   => { c with session := s }
  | .error f s =>
    { session := if f.kind = .memoryFault then s.retreat else s.abandon
      failure := c.failure <|> some f }

/-- Runs the call to its end, in at most `fuel` turns. -/
def finish? : Nat → Call → Option Call
  | 0, c        => if c.isOver then some c else none
  | fuel + 1, c => if c.isOver then some c else finish? fuel c.turn

/-- What a call that is over reports. -/
def outcome (c : Call) : Outcome Unit :=
  match c.failure with
  | none   => .ok () c.session
  | some f => .error f c.session

end Call

namespace Session

/-- Runs the code at `entry` as a call of the top level. -/
def run? (fuel : Nat) (s : Session) (entry : Nat) : Option (Outcome Unit) :=
  ((Call.start s entry).finish? fuel).map Call.outcome

end Session

end MiniForth
