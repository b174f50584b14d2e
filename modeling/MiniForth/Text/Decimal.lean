/-!
# Decimal text

How numbers are written: the fewest decimal digits, most significant first, with a minus sign in
front of negative ones. There is no grouping, no plus sign, and zero is the single digit `0`.
-/

namespace MiniForth.Decimal

/-- The decimal digits of `n`. -/
def ofNat (n : Nat) : String := String.ofList (Nat.toDigits 10 n)

/-- The decimal text of an integer. -/
def ofInt : Int → String
  | .ofNat n   => ofNat n
  | .negSucc n => "-" ++ ofNat (n + 1)

@[simp] theorem toList_ofNat (n : Nat) : (ofNat n).toList = Nat.toDigits 10 n :=
  String.toList_ofList

end MiniForth.Decimal
