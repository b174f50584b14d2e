import MiniForth.Failure

/-!
# Responses

What a line hands back: the output of its words, the failure that ended it, and the background
colour it chose.
-/

namespace MiniForth

/-- The result of a line. -/
structure Response where
  /-- The texts that were printed, with single spaces between them. -/
  output     : String := ""
  /-- The failure that ended the line, if one did. -/
  failure    : Option Failure := none
  /-- The background colour chosen last, if one was. -/
  background : Option Cell := none
  deriving DecidableEq, Repr

namespace Response

/-- Was the whole line processed? -/
def isOk (r : Response) : Bool := r.failure.isNone

/-- The failure as text; empty if there is none. -/
def failureText (r : Response) : String :=
  match r.failure with
  | some f => f.text
  | none   => ""

/-- The background colour as `#rrggbb`. -/
def backgroundText? (r : Response) : Option String :=
  r.background.map fun colour =>
    "#" ++ String.ofList ((Nat.toDigits 16 colour.low24).leftpad 6 '0')

/-- The response as a line of the history: the output, and `ok` or the failure after a question
mark. -/
def text (r : Response) : String :=
  (if r.output.isEmpty then "" else r.output ++ " ") ++
    match r.failure with
    | some f => "? " ++ f.text
    | none   => "ok"

end Response

end MiniForth
