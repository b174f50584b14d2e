import MiniForth.Cell

/-!
# Numerals

Which words of a line are numbers, and which cell each one means. A numeral is either decimal,
digits with an optional sign, or a minus sign at most, one of the markers `0x` and `0b`, and digits
of that radix. After a marker the letters of hexadecimal may have either case, and underscores may
stand anywhere.

A number that does not fit a cell is no numeral. After a marker it is the number without the minus
sign in front that has to fit, so the least cell can be written in decimal only.

The digits after a marker are read as a signed number once the underscores are gone. A sign directly
after the marker is refused, but one that follows an underscore is read: `0x_-5` is -5.
-/

namespace MiniForth.Numeral

/-- The value of a digit in the given radix, which is at most 16. -/
def digit? (radix : Nat) (c : Char) : Option Nat :=
  let value :=
    if '0' ≤ c ∧ c ≤ '9' then c.toNat - '0'.toNat
    else if 'a' ≤ c ∧ c ≤ 'f' then c.toNat - 'a'.toNat + 10
    else if 'A' ≤ c ∧ c ≤ 'F' then c.toNat - 'A'.toNat + 10
    else radix
  if value < radix then some value else none

/-- The value of digits that follow a number with value `high`. -/
def digitsAfter? (radix high : Nat) : List Char → Option Nat
  | []      => some high
  | c :: cs => (digit? radix c).bind fun d => digitsAfter? radix (radix * high + d) cs

/-- The value of one or more digits. -/
def natural? (radix : Nat) (digits : List Char) : Option Nat :=
  if digits.isEmpty then none else digitsAfter? radix 0 digits

/-- The value of digits with an optional sign in front. -/
def integer? (radix : Nat) : List Char → Option Int
  | '-' :: digits => (natural? radix digits).map fun n => -(n : Int)
  | '+' :: digits => (natural? radix digits).map fun n => (n : Int)
  | digits        => (natural? radix digits).map fun n => (n : Int)

/-- The cell that signed digits mean, if it fits. -/
def cell? (radix : Nat) (digits : List Char) : Option Cell :=
  (integer? radix digits).bind Cell.ofInt?

/-- The cell that the digits after a marker mean. -/
def marked? (radix : Nat) : List Char → Option Cell
  | '-' :: _ => none
  | '+' :: _ => none
  | digits   => cell? radix (digits.filter (· != '_'))

/-- The cell with the opposite value, if it fits. -/
def opposite? (c : Cell) : Option Cell := Cell.ofInt? (-c.toInt)

/-- The cell that a text means. -/
def value? (text : String) : Option Cell :=
  match text.toList with
  | '-' :: '0' :: 'x' :: digits => (marked? 16 digits).bind opposite?
  | '-' :: '0' :: 'b' :: digits => (marked? 2 digits).bind opposite?
  | '0' :: 'x' :: digits        => marked? 16 digits
  | '0' :: 'b' :: digits        => marked? 2 digits
  | digits                      => cell? 10 digits

end MiniForth.Numeral
