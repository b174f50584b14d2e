import MiniForth.Cell
import MiniForth.Text.Location

/-!
# Failures

What can go wrong in a session. A `Cause` says what happened; it determines the kind of the failure
and its message. A `Failure` is what is reported: a kind and a message, with the location of the
token at fault where there is one.
-/

namespace MiniForth

/-- The kinds of failures. In compiled code a memory fault abandons the running definition only; a
failure of any other kind abandons all its callers too. -/
inductive FailureKind where
  | stackUnderflow
  | memoryFault
  | undefinedWord
  | nestedColon
  | unexpectedSemicolon
  deriving DecidableEq, Inhabited, Repr

/-- The kind in words. -/
def FailureKind.text : FailureKind → String
  | .stackUnderflow      => "stack underflow"
  | .memoryFault         => "memory fault"
  | .undefinedWord       => "undefined word"
  | .nestedColon         => "nested colon"
  | .unexpectedSemicolon => "unexpected semicolon"

/-- The kind as a single word, for reports to developers. -/
def FailureKind.tag : FailureKind → String
  | .stackUnderflow      => "StackUnderflow"
  | .memoryFault         => "MemoryFault"
  | .undefinedWord       => "UndefinedWord"
  | .nestedColon         => "NestedColon"
  | .unexpectedSemicolon => "UnexpectedSemicolon"

/-- What happened. -/
inductive Cause where
  /-- A cell was taken from an empty stack. -/
  | emptyStack
  /-- A word needs more cells than the stack holds. -/
  | tooFewCells (wanted found : Nat)
  /-- There is no code at the address. -/
  | outsideCode (address : Nat)
  /-- The cell of code at the address is the index of no word. -/
  | notAWord (cell : Cell) (address : Nat)
  /-- No word has the index. -/
  | noSuchIndex (index : Nat)
  /-- The text is neither a visible word nor a number. -/
  | unknownWord (text : String)
  /-- A number has to stand here, and the text is none. -/
  | notANumber (text : String)
  /-- A definition was started while the session compiles. -/
  | nestedColon
  /-- A definition was ended while the session does not compile. -/
  | unexpectedSemicolon
  deriving DecidableEq, Repr

namespace Cause

/-- The kind of failure that a cause leads to. -/
def kind : Cause → FailureKind
  | emptyStack          => .stackUnderflow
  | tooFewCells _ _     => .stackUnderflow
  | outsideCode _       => .memoryFault
  | notAWord _ _        => .memoryFault
  | noSuchIndex _       => .memoryFault
  | unknownWord _       => .undefinedWord
  | notANumber _        => .undefinedWord
  | nestedColon         => .nestedColon
  | unexpectedSemicolon => .unexpectedSemicolon

/-- The message that describes a cause. -/
def message : Cause → String
  | emptyStack => "Stack underflow."
  | tooFewCells wanted found =>
    "Stack underflow, expected " ++ Decimal.ofNat wanted ++ " values but found " ++
      Decimal.ofNat found ++ "."
  | outsideCode address => "Read outside of code memory at address " ++ Decimal.ofNat address ++ "."
  | notAWord cell address =>
    "Cell " ++ cell.text ++ " at address " ++ Decimal.ofNat address ++ " is not a word."
  | noSuchIndex index => "Word index " ++ Decimal.ofNat index ++ " not found."
  | unknownWord text => "Word " ++ text ++ " not found."
  | notANumber text => "Expected a literal value, found " ++ text ++ "."
  | nestedColon => "Can not start a new word while already compiling one."
  | unexpectedSemicolon => "Ending a word definition while not compiling."

end Cause

/-- A failure as it is reported. -/
structure Failure where
  location : Option Location
  kind     : FailureKind
  message  : String
  deriving DecidableEq, Repr

namespace Failure

/-- The report of a cause, at a location if one is known. -/
def ofCause (location : Option Location) (cause : Cause) : Failure where
  location := location
  kind     := cause.kind
  message  := cause.message

/-- Gives the failure a location, unless it has one. -/
def withLocation (f : Failure) (location : Option Location) : Failure :=
  { f with location := f.location <|> location }

/-- The failure as users see it: its message, after its location if it has one. -/
def text (f : Failure) : String :=
  match f.location with
  | some l => l.text ++ ": " ++ f.message
  | none   => f.message

/-- The failure as developers see it, with the tag of its kind in front. -/
def debugText (f : Failure) : String := f.kind.tag ++ ": " ++ f.text

@[simp] theorem location_ofCause (l : Option Location) (c : Cause) :
    (ofCause l c).location = l := rfl

@[simp] theorem kind_ofCause (l : Option Location) (c : Cause) : (ofCause l c).kind = c.kind := rfl

@[simp] theorem message_ofCause (l : Option Location) (c : Cause) :
    (ofCause l c).message = c.message := rfl

theorem withLocation_of_location {f : Failure} {l : Location} (h : f.location = some l)
    (other : Option Location) : f.withLocation other = f := by
  cases f
  cases h
  rfl

end Failure

end MiniForth
