/-!
# Blanks and separators

Two classes of characters. *Blanks* are the characters with the Unicode property White_Space; they
are what trimming a line removes. *Separators* are what ends a word of a line: the blanks and the
comma, which therefore can be used as freely as a space between words.
-/

namespace MiniForth.Text

/-- Does the character have the Unicode property White_Space? -/
def isBlank (c : Char) : Bool :=
  let code := c.toNat
  (0x09 ≤ code && code ≤ 0x0D) || code == 0x20 || code == 0x85 || code == 0xA0 || code == 0x1680 ||
    (0x2000 ≤ code && code ≤ 0x200A) || code == 0x2028 || code == 0x2029 || code == 0x202F ||
    code == 0x205F || code == 0x3000

/-- Does the character end a word? -/
def isSeparator (c : Char) : Bool := isBlank c || c == ','

/-- The text without the blanks at its two ends. -/
def trim (text : String) : String :=
  String.ofList ((text.toList.dropWhile isBlank).reverse.dropWhile isBlank).reverse

end MiniForth.Text
