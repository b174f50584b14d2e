import MiniForth.Numeral
import MiniForth.Text.Blank
import MiniForth.Text.Reader

/-!
# Tokens

The words of a line: its maximal runs of characters that are no separators, each with the location
of its first character. Separators only keep words apart, so a line of separators has no tokens, and
nothing but a separator ends one (`1+2` is a single word).
-/

namespace MiniForth

/-- One word of a line. -/
structure Token where
  text     : String
  location : Location
  deriving DecidableEq, Repr

namespace Token

/-- The cell that the token means when it is read as a number. -/
def number? (t : Token) : Option Cell := Numeral.value? t.text

/-- What is left of a line in front of its first word. -/
def skipSeparators (r : Reader) : Reader := (r.span Text.isSeparator).2

/-- Reads the word in front; it is empty where a separator or the end follows. -/
def word (r : Reader) : List Char × Reader := r.span (!Text.isSeparator ·)

/-- Reading a word that is not empty shortens the line. -/
theorem length_rest_word_lt {r : Reader} (h : (word (skipSeparators r)).1 ≠ []) :
    (word (skipSeparators r)).2.rest.length < r.rest.length :=
  Nat.lt_of_lt_of_le (Reader.length_rest_span_lt h) (Reader.length_rest_span_le _ r)

/-- The words that a reader still has in front of it: skip separators, read a word, go on. -/
def ofReader (r : Reader) : List Token :=
  let start := skipSeparators r
  let read := word start
  if _ : read.1 = [] then []
  else { text := String.ofList read.1, location := start.location } :: ofReader read.2
termination_by r.rest.length
decreasing_by exact length_rest_word_lt ‹_›

/-- The words of a line of a source. -/
def ofLine (path : String) (line : Nat) (text : String) : List Token :=
  ofReader (Reader.ofLine path line text)

end Token

end MiniForth
