import MiniForth.Listing
import MiniForth.Session.State

/-!
# The state panel

The state of a session for display: five labelled lines, then the whole of code memory. Every line is
ended.
-/

namespace MiniForth.Session

/-- The lines of the panel above the listing. -/
def panelHead (s : Session) : List String :=
  ["mode:     " ++ s.mode.text,
   "compiler: " ++ s.phase.text,
   "wp:       " ++ Decimal.ofNat s.cursor,
   "stack:    " ++ s.stackText,
   "return:   " ++ Decimal.ofNat s.returns.length,
   "code:"]

/-- The panel. -/
def panel (s : Session) : String :=
  String.join (s.panelHead.map (· ++ "\n")) ++ Listing.text s.dictionary s.code.toList

end MiniForth.Session
