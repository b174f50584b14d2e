import Mathlib.Data.Nat.Digits.Defs
import MiniForth.Numeral

/-!
# How numbers are written

A grammar of numerals, with the number that each one means, and `Numeral.value?` against it. The grammar
is written from the side of who types a number: `Spelling` builds all numerals and nothing else, and the
value of one is the positional value of its digits.

* `digitsAfter?_eq_some_iff`, `natural?_eq_some_iff`, `integer?_eq_some_iff`: which characters are read as
  a number, and as which.
* `spelling_exact`: a spelling is read as its value, or as no number if that does not fit a cell.
* `spelling_of_value?`: what is read as a number is a spelling, or has a stray sign behind an underscore.
-/

namespace MiniForth.Numeral

/-! ## Digits -/

/-- What a character is worth as a digit: its place among the sixteen digits, in either case. A character
that is none of them is worth 16. -/
def worth (c : Char) : Nat := "0123456789abcdef".toList.idxOf c.toLower

/-- Is the character a digit of the radix, which is at most 16? -/
def IsDigit (radix : Nat) (c : Char) : Prop := worth c < radix

instance (radix : Nat) (c : Char) : Decidable (IsDigit radix c) :=
  inferInstanceAs (Decidable (_ < _))

/-- The positional value of digits, the last of which counts once. -/
def magnitude (radix : Nat) (digits : List Char) : Nat :=
  Nat.ofDigits radix (digits.reverse.map worth)

theorem toLower_of_ge {c : Char} (h : 128 ≤ c.toNat) : c.toLower = c := by
  apply dif_neg
  rintro ⟨-, hle⟩
  have hle : c.toNat ≤ 90 := hle
  omega

/-- What holds of the ASCII characters one by one holds of all of them. -/
@[elab_as_elim]
theorem forall_ascii {motive : Char → Prop} (c : Char) (hc : c.toNat < 128)
    (h : ∀ n < 128, motive (Char.ofNat n)) : motive c := by
  have hc := h c.toNat hc
  rwa [Char.ofNat_toNat] at hc

theorem worth_eq (c : Char) :
    worth c =
      if '0' ≤ c ∧ c ≤ '9' then c.toNat - '0'.toNat
      else if 'a' ≤ c ∧ c ≤ 'f' then c.toNat - 'a'.toNat + 10
      else if 'A' ≤ c ∧ c ≤ 'F' then c.toNat - 'A'.toNat + 10
      else 16 := by
  rcases Nat.lt_or_ge c.toNat 128 with hlt | hge
  · refine forall_ascii c hlt ?_
    decide +kernel
  · -- All digits are ASCII characters.
    have hbeyond {d : Char} (hd : d.toNat < 128) : ¬ c ≤ d := by
      intro hle
      have hle : c.toNat ≤ d.toNat := hle
      omega
    have hnone : c ∉ "0123456789abcdef".toList := by
      intro hmem
      have hall : ∀ d ∈ "0123456789abcdef".toList, d.toNat < 128 := by simp
      have hlt := hall c hmem
      omega
    rw [worth, toLower_of_ge hge, List.idxOf_eq_length hnone, if_neg, if_neg, if_neg]
    · rfl
    · exact fun h => hbeyond (by simp) h.2
    · exact fun h => hbeyond (by simp) h.2
    · exact fun h => hbeyond (by simp) h.2

/-- The case of a letter makes no difference. -/
theorem worth_toLower (c : Char) : worth c.toLower = worth c := by
  have hidem : c.toLower.toLower = c.toLower := by
    rcases Nat.lt_or_ge c.toNat 128 with hlt | hge
    · refine forall_ascii c hlt ?_
      decide +kernel
    · rw [toLower_of_ge hge, toLower_of_ge hge]
  rw [worth, hidem, ← worth]

section

variable {radix : Nat}

theorem magnitude_cons (radix : Nat) (c : Char) (cs : List Char) :
    magnitude radix (c :: cs) = radix ^ cs.length * worth c + magnitude radix cs := by
  simp [magnitude, Nat.ofDigits_append, Nat.add_comm]

/-- What a number is worth does not depend on the case of its digits, nor on zeros in front of it. -/
theorem magnitude_dropWhile_toLower (cs : List Char) :
    magnitude radix ((cs.map Char.toLower).dropWhile (· == '0')) = magnitude radix cs := by
  induction cs with
  | nil => rfl
  | cons c cs ih =>
    rw [List.map_cons, List.dropWhile_cons]
    split
    · next hzero =>
      have hworth : worth c = 0 := by
        rw [← worth_toLower, beq_iff_eq.mp hzero]
        decide
      rw [ih, magnitude_cons, hworth, Nat.mul_zero, Nat.zero_add]
    · have hcase : (cs.map Char.toLower).map worth = cs.map worth := by
        simp [Function.comp_def, worth_toLower]
      simp only [magnitude, List.map_reverse, List.map_cons, worth_toLower, hcase]

variable (hradix : radix ≤ 16)

include hradix

theorem digit?_eq_some_iff {c : Char} {d : Nat} :
    digit? radix c = some d ↔ IsDigit radix c ∧ worth c = d := by
  simp only [digit?, IsDigit, worth_eq]
  grind

/-- A sign is no digit, and neither is an underscore. -/
theorem not_isDigit {c : Char} (hc : c ∈ ['+', '-', '_']) : ¬ IsDigit radix c := by
  have hworth : worth c = 16 := by
    simp only [List.mem_cons, List.not_mem_nil, or_false] at hc
    rcases hc with rfl | rfl | rfl <;> decide
  rw [IsDigit, hworth]
  omega

/-- Digits that follow a number shift it to the left. -/
theorem digitsAfter?_eq_some_iff {high n : Nat} {cs : List Char} :
    digitsAfter? radix high cs = some n ↔
      (∀ c ∈ cs, IsDigit radix c) ∧ radix ^ cs.length * high + magnitude radix cs = n := by
  induction cs generalizing high with
  | nil => simp [digitsAfter?, magnitude]
  | cons c cs ih =>
    have hshift (d : Nat) : radix ^ cs.length * (radix * high + d) =
        radix ^ (cs.length + 1) * high + radix ^ cs.length * d := by ring
    simp only [digitsAfter?, Option.bind_eq_some_iff, digit?_eq_some_iff hradix, ih,
      List.forall_mem_cons, magnitude_cons, List.length_cons]
    constructor
    · rintro ⟨d, ⟨hc, rfl⟩, hcs, hn⟩
      exact ⟨⟨hc, hcs⟩, by rw [← hn, hshift]; omega⟩
    · rintro ⟨⟨hc, hcs⟩, hn⟩
      exact ⟨_, ⟨hc, rfl⟩, hcs, by rw [← hn, hshift]; omega⟩

end

/-! ## The grammar -/

/-- What stands in front of the digits of a number. -/
inductive Sign where
  | absent
  | plus
  | minus
  deriving DecidableEq, Repr

/-- How the sign is written. -/
def Sign.chars : Sign → List Char
  | absent => []
  | plus   => ['+']
  | minus  => ['-']

/-- The number with the sign in front. -/
def Sign.apply (sign : Sign) (n : Nat) : Int := if sign = minus then -n else n

/-- What announces digits that are not decimal. -/
inductive Marker where
  | hexadecimal
  | binary
  deriving DecidableEq, Repr

/-- How the marker is written. -/
def Marker.chars : Marker → List Char
  | hexadecimal => ['0', 'x']
  | binary      => ['0', 'b']

/-- The radix of the digits that follow. -/
def Marker.radix : Marker → Nat
  | hexadecimal => 16
  | binary      => 2

theorem Marker.radix_le (marker : Marker) : marker.radix ≤ 16 := by cases marker <;> simp [radix]

/-- One or more digits. -/
structure Digits (radix : Nat) where
  chars    : List Char
  isDigit  : ∀ c ∈ chars, IsDigit radix c
  nonempty : chars ≠ []

/-- One or more digits with underscores anywhere. -/
structure LooseDigits (radix : Nat) where
  chars        : List Char
  isDigit      : ∀ c ∈ chars, c = '_' ∨ IsDigit radix c
  exists_digit : ∃ c ∈ chars, IsDigit radix c

/-- The digits that a text consists of. -/
def LooseDigits.ofText {radix : Nat} (text : String)
    (hall : text.toList.all (fun c => c = '_' ∨ IsDigit radix c) = true)
    (hany : text.toList.any (IsDigit radix ·) = true) : LooseDigits radix where
  chars        := text.toList
  isDigit      := by simpa using hall
  exists_digit := by simpa using hany

/-- A numeral. In front of a marker there is no plus sign. -/
inductive Spelling where
  | decimal (sign : Sign) (digits : Digits 10)
  | marked (sign : Sign) (notPlus : sign ≠ .plus) (marker : Marker)
      (digits : LooseDigits marker.radix)

namespace Spelling

/-- How the numeral is written. -/
def text : Spelling → String
  | decimal sign digits         => String.ofList (sign.chars ++ digits.chars)
  | marked sign _ marker digits => String.ofList (sign.chars ++ marker.chars ++ digits.chars)

/-- The sign, which can be absent. -/
def sign : Spelling → Sign
  | decimal sign _    => sign
  | marked sign _ _ _ => sign

/-- The marker, if there is one. -/
def marker? : Spelling → Option Marker
  | decimal _ _         => none
  | marked _ _ marker _ => some marker

/-- The radix of the digits: the one that the marker stands for, or ten. -/
def radix (l : Spelling) : Nat := (l.marker?.map Marker.radix).getD 10

/-- The digits, without the underscores. -/
def digits : Spelling → List Char
  | decimal _ digits    => digits.chars
  | marked _ _ _ digits => digits.chars.filter (· != '_')

/-- The number without its sign. -/
def magnitude (l : Spelling) : Nat := Numeral.magnitude l.radix l.digits

/-- The number. -/
def value (l : Spelling) : Int := l.sign.apply l.magnitude

/-- Does the number fit a cell? Behind a marker it has to do so without its sign. -/
def Fits (l : Spelling) : Prop :=
  match l.marker? with
  | none   => -2 ^ 63 ≤ l.value ∧ l.value ≤ 2 ^ 63 - 1
  | some _ => l.magnitude ≤ 2 ^ 63 - 1

instance : (l : Spelling) → Decidable l.Fits
  | decimal _ _    => inferInstanceAs (Decidable (_ ∧ _))
  | marked _ _ _ _ => inferInstanceAs (Decidable (_ ≤ _))

/-- The two differ in underscores, in zeros in front, in the case of digits, and in a plus sign. -/
structure Respells (l l' : Spelling) : Prop where
  marker : l.marker? = l'.marker?
  sign   : l.sign = .minus ↔ l'.sign = .minus
  digits : (l.digits.map Char.toLower).dropWhile (· == '0') =
    (l'.digits.map Char.toLower).dropWhile (· == '0')

theorem Respells.magnitude {l l' : Spelling} (h : l.Respells l') : l.magnitude = l'.magnitude := by
  have hradix : l.radix = l'.radix := by rw [radix, radix, h.marker]
  rw [Spelling.magnitude, ← magnitude_dropWhile_toLower, hradix, h.digits,
    magnitude_dropWhile_toLower, ← Spelling.magnitude]

theorem Respells.value {l l' : Spelling} (h : l.Respells l') : l.value = l'.value := by
  simp only [Spelling.value, Sign.apply, h.magnitude, h.sign]

theorem Respells.fits {l l' : Spelling} (h : l.Respells l') : l.Fits ↔ l'.Fits := by
  rw [Fits, Fits, h.marker, h.value, h.magnitude]

end Spelling

/-! ## Reading signed digits -/

theorem natural?_eq_some_iff {radix : Nat} (hradix : radix ≤ 16) {n : Nat} {cs : List Char} :
    natural? radix cs = some n ↔
      ∃ digits : Digits radix, digits.chars = cs ∧ magnitude radix cs = n := by
  rw [natural?]
  split
  · next hnil =>
    simp only [reduceCtorEq, false_iff, not_exists, not_and]
    rintro digits rfl
    exact absurd (List.isEmpty_iff.mp hnil) digits.nonempty
  · next hne =>
    rw [digitsAfter?_eq_some_iff hradix, Nat.mul_zero, Nat.zero_add]
    constructor
    · rintro ⟨hcs, hn⟩
      exact ⟨⟨cs, hcs, by simpa using hne⟩, rfl, hn⟩
    · rintro ⟨digits, rfl, hn⟩
      exact ⟨digits.isDigit, hn⟩

theorem integer?_minus (radix : Nat) (cs : List Char) :
    integer? radix ('-' :: cs) = (natural? radix cs).map Sign.minus.apply := by
  rw [integer?]
  cases natural? radix cs <;> rfl

theorem integer?_plus (radix : Nat) (cs : List Char) :
    integer? radix ('+' :: cs) = (natural? radix cs).map Sign.plus.apply := by
  rw [integer?]
  cases natural? radix cs <;> rfl

theorem integer?_absent {radix : Nat} {cs : List Char} (hminus : ∀ ds, cs ≠ '-' :: ds)
    (hplus : ∀ ds, cs ≠ '+' :: ds) :
    integer? radix cs = (natural? radix cs).map Sign.absent.apply := by
  rw [integer?.eq_3 _ _ hminus hplus]
  cases natural? radix cs <;> rfl

theorem integer?_append {radix : Nat} (hradix : radix ≤ 16) (sign : Sign) (digits : Digits radix) :
    integer? radix (sign.chars ++ digits.chars) =
      some (sign.apply (magnitude radix digits.chars)) := by
  have hnatural : natural? radix digits.chars = some (magnitude radix digits.chars) :=
    (natural?_eq_some_iff hradix).mpr ⟨digits, rfl, rfl⟩
  cases sign with
  | minus =>
    show integer? radix ('-' :: digits.chars) = _
    rw [integer?_minus, hnatural, Option.map_some]
  | plus =>
    show integer? radix ('+' :: digits.chars) = _
    rw [integer?_plus, hnatural, Option.map_some]
  | absent =>
    have hfirst {c : Char} (hc : c ∈ ['+', '-', '_']) (ds : List Char) : digits.chars ≠ c :: ds := by
      intro hds
      apply not_isDigit hradix hc
      apply digits.isDigit
      rw [hds]
      exact List.mem_cons_self
    show integer? radix digits.chars = _
    rw [integer?_absent (hfirst (by simp)) (hfirst (by simp)), hnatural, Option.map_some]

/-- Signed digits are read as the number they are worth, and nothing else is read. -/
theorem integer?_eq_some_iff {radix : Nat} (hradix : radix ≤ 16) {i : Int} {cs : List Char} :
    integer? radix cs = some i ↔
      ∃ (sign : Sign) (digits : Digits radix), sign.chars ++ digits.chars = cs ∧
        sign.apply (magnitude radix digits.chars) = i := by
  constructor
  · intro hi
    -- The sign is the one that the text begins with.
    obtain ⟨sign, ds, rfl, hsign⟩ : ∃ (sign : Sign) (ds : List Char), sign.chars ++ ds = cs ∧
        integer? radix cs = (natural? radix ds).map sign.apply := by
      by_cases hminus : ∃ ds, cs = '-' :: ds
      · obtain ⟨ds, rfl⟩ := hminus
        exact ⟨.minus, ds, rfl, integer?_minus radix ds⟩
      · by_cases hplus : ∃ ds, cs = '+' :: ds
        · obtain ⟨ds, rfl⟩ := hplus
          exact ⟨.plus, ds, rfl, integer?_plus radix ds⟩
        · exact ⟨.absent, cs, rfl, integer?_absent (not_exists.mp hminus) (not_exists.mp hplus)⟩
    rw [hsign] at hi
    obtain ⟨n, hn, rfl⟩ := Option.map_eq_some_iff.mp hi
    obtain ⟨digits, rfl, rfl⟩ := (natural?_eq_some_iff hradix).mp hn
    exact ⟨sign, digits, rfl, rfl⟩
  · rintro ⟨sign, digits, rfl, rfl⟩
    exact integer?_append hradix sign digits

theorem cell?_append {radix : Nat} (hradix : radix ≤ 16) (sign : Sign) (digits : Digits radix) :
    cell? radix (sign.chars ++ digits.chars) =
      Cell.ofInt? (sign.apply (magnitude radix digits.chars)) := by
  rw [cell?, integer?_append hradix, Option.bind_some]

/-! ## Markers -/

/-- Puts the sign in front of a marker to a cell that was read behind it. -/
def Sign.onCell? : Sign → Cell → Option Cell
  | minus, c => opposite? c
  | _, c     => some c

theorem value?_marked {sign : Sign} (hsign : sign ≠ .plus) (marker : Marker) (cs : List Char) :
    value? (String.ofList (sign.chars ++ marker.chars ++ cs)) =
      (marked? marker.radix cs).bind sign.onCell? := by
  rw [value?, String.toList_ofList]
  cases sign with
  | plus => exact absurd rfl hsign
  | minus => cases marker <;> rfl
  | absent => cases marker <;> exact (Option.bind_fun_some _).symm

theorem value?_unmarked {cs : List Char}
    (h : ∀ (sign : Sign) (marker : Marker) (ds : List Char), sign ≠ .plus →
      sign.chars ++ marker.chars ++ ds ≠ cs) :
    value? (String.ofList cs) = cell? 10 cs := by
  rw [value?, String.toList_ofList]
  split
  · exact absurd rfl (h .minus .hexadecimal _ (by simp))
  · exact absurd rfl (h .minus .binary _ (by simp))
  · exact absurd rfl (h .absent .hexadecimal _ (by simp))
  · exact absurd rfl (h .absent .binary _ (by simp))
  · rfl

/-- The letter of a marker is no decimal digit. -/
theorem append_marker_ne (sign sign' : Sign) (marker : Marker) (ds : List Char) (digits : Digits 10) :
    sign'.chars ++ marker.chars ++ ds ≠ sign.chars ++ digits.chars := by
  intro heq
  obtain ⟨letter, hletter, hsigns, hdigit⟩ : ∃ letter ∈ marker.chars,
      (∀ sign : Sign, letter ∉ sign.chars) ∧ ¬ IsDigit 10 letter := by
    cases marker
    · exact ⟨'x', by decide, by rintro ⟨⟩ <;> decide, by decide⟩
    · exact ⟨'b', by decide, by rintro ⟨⟩ <;> decide, by decide⟩
  have hmem : letter ∈ sign.chars ++ digits.chars := by
    rw [← heq]
    simp [hletter]
  rcases List.mem_append.mp hmem with hmem | hmem
  · exact hsigns sign hmem
  · exact hdigit (digits.isDigit letter hmem)

/-- The digits without the underscores. -/
def LooseDigits.tight {radix : Nat} (hradix : radix ≤ 16) (digits : LooseDigits radix) :
    Digits radix where
  chars := digits.chars.filter (· != '_')
  isDigit := by
    intro c hc
    obtain ⟨hmem, hne⟩ := List.mem_filter.mp hc
    exact (digits.isDigit c hmem).resolve_left (by simpa using hne)
  nonempty := by
    obtain ⟨c, hc, hdigit⟩ := digits.exists_digit
    have hne : c ≠ '_' := by
      rintro rfl
      exact not_isDigit hradix (by simp) hdigit
    exact List.ne_nil_of_mem (List.mem_filter.mpr ⟨hc, by simpa using hne⟩)

theorem marked?_loose (marker : Marker) (digits : LooseDigits marker.radix) :
    marked? marker.radix digits.chars =
      Cell.ofInt? (magnitude marker.radix (digits.chars.filter (· != '_'))) := by
  have hfirst {c : Char} (hc : c ∈ ['+', '-']) (ds : List Char) : digits.chars ≠ c :: ds := by
    intro hds
    have hmem : c ∈ digits.chars := by
      rw [hds]
      exact List.mem_cons_self
    rcases digits.isDigit c hmem with rfl | hdigit
    · simp at hc
    · exact not_isDigit marker.radix_le (by grind) hdigit
  rw [marked?.eq_3 _ _ (hfirst (by simp)) (hfirst (by simp))]
  exact cell?_append marker.radix_le .absent (digits.tight marker.radix_le)

/-! ## Values -/

theorem map_toInt_ofInt? (i : Int) :
    (Cell.ofInt? i).map Int64.toInt = if -2 ^ 63 ≤ i ∧ i ≤ 2 ^ 63 - 1 then some i else none := by
  rcases h : Cell.ofInt? i with _ | c
  · rw [Cell.ofInt?] at h
    grind
  · have hc := Cell.toInt_of_ofInt? h
    subst hc
    have hle := c.le_toInt
    have hlt := c.toInt_lt
    rw [Option.map_some, if_pos (by omega)]

/-- The opposite of a number that fits and is not negative fits too. -/
theorem map_toInt_onCell? {sign : Sign} (hsign : sign ≠ .plus) (n : Nat) :
    ((Cell.ofInt? n).bind sign.onCell?).map Int64.toInt =
      if n ≤ 2 ^ 63 - 1 then some (sign.apply n) else none := by
  have hn := map_toInt_ofInt? n
  rcases hcell : Cell.ofInt? n with _ | c
  · rw [hcell] at hn
    rw [if_neg (by grind)]
    rfl
  · have hc := Cell.toInt_of_ofInt? hcell
    have hlt := c.toInt_lt
    rw [if_pos (by omega), Option.bind_some]
    cases sign with
    | plus => exact absurd rfl hsign
    | absent => exact congrArg some hc
    | minus =>
      show (opposite? c).map _ = _
      rw [opposite?, hc, map_toInt_ofInt?, if_pos (by omega)]
      rfl

/-- A spelling is read as its value, if that fits. -/
theorem map_toInt_value? (l : Spelling) :
    (value? l.text).map Int64.toInt = if l.Fits then some l.value else none := by
  cases l with
  | decimal sign digits =>
    have hunmarked := value?_unmarked fun sign' marker ds _ =>
      append_marker_ne sign sign' marker ds digits
    rw [Spelling.text, hunmarked, cell?_append (by simp), map_toInt_ofInt?]
    rfl
  | marked sign notPlus marker digits =>
    rw [Spelling.text, value?_marked notPlus, marked?_loose, map_toInt_onCell? notPlus]
    rfl

/-- Every spelling is read exactly: as its value, or as no number if that does not fit. Underscores, zeros in
front, the case of digits and a plus sign never change what is read. -/
theorem spelling_exact :
    (∀ l : Spelling, (value? l.text).map Int64.toInt = if l.Fits then some l.value else none) ∧
    ∀ l l' : Spelling, l.Respells l' → value? l.text = value? l'.text := by
  refine ⟨map_toInt_value?, ?_⟩
  intro l l' h
  apply Option.map_injective fun _ _ => Int64.toInt_inj.mp
  rw [map_toInt_value?, map_toInt_value?, h.value]
  exact if_congr h.fits rfl rfl

/-- The least number that can be written in hexadecimal. -/
def least : Spelling :=
  .marked .minus (by simp) .hexadecimal
    (.ofText "7fff_FFFF_ffff_FFFF" (by decide +kernel) (by decide +kernel))

/-- The same number without underscores, with zeros in front and in small letters only. -/
def leastPlain : Spelling :=
  .marked .minus (by simp) .hexadecimal
    (.ofText "007fffffffffffffff" (by decide +kernel) (by decide +kernel))

theorem least_spelling_exact : least.Respells leastPlain ∧
    value? "-0x7fff_FFFF_ffff_FFFF" = value? "-0x007fffffffffffffff" ∧
    (value? "-0x7fff_FFFF_ffff_FFFF").map Int64.toInt = some (-9223372036854775807) := by
  have hrespells : least.Respells leastPlain := ⟨by decide, by decide, by decide +kernel⟩
  have htext : least.text = "-0x7fff_FFFF_ffff_FFFF" := by decide +kernel
  have hplain : leastPlain.text = "-0x007fffffffffffffff" := by decide +kernel
  have hfits : least.Fits := by decide +kernel
  have hvalue : least.value = -9223372036854775807 := by decide +kernel
  rw [← htext, ← hplain, spelling_exact.1 least, if_pos hfits, hvalue]
  exact ⟨hrespells, spelling_exact.2 least leastPlain hrespells, rfl⟩

/-! ## What is accepted -/

theorem exists_loose {radix : Nat} {digits : Digits radix} {cs : List Char}
    (h : digits.chars = cs.filter (· != '_')) :
    ∃ loose : LooseDigits radix, loose.chars = cs := by
  have hmem {c : Char} : c ∈ digits.chars ↔ c ∈ cs ∧ c ≠ '_' := by
    rw [h, List.mem_filter, bne_iff_ne]
  refine ⟨⟨cs, ?_, ?_⟩, rfl⟩
  · intro c hc
    by_cases hunderscore : c = '_'
    · exact .inl hunderscore
    · exact .inr (digits.isDigit c (hmem.mpr ⟨hc, hunderscore⟩))
  · obtain ⟨c, hc⟩ := List.exists_mem_of_ne_nil _ digits.nonempty
    exact ⟨c, (hmem.mp hc).1, digits.isDigit c hc⟩

/-- Behind a marker, digits that have a sign of their own. Underscores stand in front of that sign, at least
one. -/
structure StraySign where
  sign    : Sign
  notPlus : sign ≠ .plus
  marker  : Marker
  /-- The number of underscores behind the first one. -/
  further : Nat
  stray   : Sign
  present : stray ≠ .absent
  digits  : LooseDigits marker.radix

/-- How the number is written. -/
def StraySign.text (l : StraySign) : String :=
  String.ofList (l.sign.chars ++ l.marker.chars ++
    ('_' :: List.replicate l.further '_' ++ (l.stray.chars ++ l.digits.chars)))

/-- Behind a marker stand digits. Once underscores have been removed they may begin with a sign, but it is
not the first character. -/
theorem loose_of_marked? {marker : Marker} {cs : List Char} {c : Cell}
    (h : marked? marker.radix cs = some c) :
    (∃ loose : LooseDigits marker.radix, loose.chars = cs) ∨
    ∃ (further : Nat) (stray : Sign) (loose : LooseDigits marker.radix), stray ≠ .absent ∧
      '_' :: List.replicate further '_' ++ (stray.chars ++ loose.chars) = cs := by
  rw [marked?.eq_def] at h
  split at h
  · cases h
  · cases h
  · next hminus hplus =>
    obtain ⟨i, hi, -⟩ := Option.bind_eq_some_iff.mp h
    obtain ⟨sign, digits, hfilter, -⟩ := (integer?_eq_some_iff marker.radix_le).mp hi
    by_cases habsent : sign = .absent
    · subst habsent
      exact .inl (exists_loose hfilter)
    · obtain ⟨first, hfirst, hsign⟩ : ∃ first, sign.chars = [first] ∧ (first = '-' ∨ first = '+') := by
        cases sign with
        | absent => exact absurd rfl habsent
        | plus => exact ⟨'+', rfl, .inr rfl⟩
        | minus => exact ⟨'-', rfl, .inl rfl⟩
      rw [hfirst, List.singleton_append] at hfilter
      obtain ⟨before, after, rfl, hbefore, -, hafter⟩ := List.filter_eq_cons_iff.mp hfilter.symm
      obtain ⟨loose, rfl⟩ := exists_loose hafter.symm
      have hunderscores : ∀ x ∈ before, x = '_' := by simpa using hbefore
      rcases before with _ | ⟨x, xs⟩
      · -- A sign that is the first character is refused.
        rcases hsign with rfl | rfl
        · exact absurd rfl (hminus _)
        · exact absurd rfl (hplus _)
      · obtain ⟨rfl, hxs⟩ := List.forall_mem_cons.mp hunderscores
        refine .inr ⟨xs.length, sign, loose, habsent, ?_⟩
        rw [← List.eq_replicate_of_mem hxs, hfirst, List.singleton_append]

/-- What is read as a number is written as one, or it has a stray sign. -/
theorem spelling_of_value? {text : String} {c : Cell} (h : value? text = some c) :
    (∃ l : Spelling, l.text = text) ∨ ∃ l : StraySign, l.text = text := by
  obtain ⟨cs, rfl⟩ : ∃ cs, text = String.ofList cs := ⟨text.toList, String.ofList_toList.symm⟩
  by_cases hmarked : ∃ (sign : Sign) (marker : Marker) (ds : List Char), sign ≠ .plus ∧
      sign.chars ++ marker.chars ++ ds = cs
  · obtain ⟨sign, marker, ds, hsign, rfl⟩ := hmarked
    rw [value?_marked hsign] at h
    obtain ⟨read, hread, -⟩ := Option.bind_eq_some_iff.mp h
    rcases loose_of_marked? hread with ⟨loose, rfl⟩ | ⟨further, stray, loose, hstray, rfl⟩
    · exact .inl ⟨.marked sign hsign marker loose, rfl⟩
    · exact .inr ⟨⟨sign, hsign, marker, further, stray, hstray, loose⟩, rfl⟩
  · have hunmarked : ∀ (sign : Sign) (marker : Marker) (ds : List Char), sign ≠ .plus →
        sign.chars ++ marker.chars ++ ds ≠ cs := by
      intro sign marker ds hsign heq
      exact hmarked ⟨sign, marker, ds, hsign, heq⟩
    rw [value?_unmarked hunmarked] at h
    obtain ⟨i, hi, -⟩ := Option.bind_eq_some_iff.mp h
    obtain ⟨sign, digits, rfl, -⟩ := (integer?_eq_some_iff (by simp)).mp hi
    exact .inl ⟨.decimal sign digits, rfl⟩

/-- A negative number in hexadecimal, with an underscore and letters of both cases. -/
theorem mask_spelling_of_value? : value? "-0x7f_FF" = some (-32767) ∧
    ((∃ l : Spelling, l.text = "-0x7f_FF") ∨ ∃ l : StraySign, l.text = "-0x7f_FF") := by
  have h : value? "-0x7f_FF" = some (-32767) := by decide +kernel
  exact ⟨h, spelling_of_value? h⟩

theorem Sign.not_mem_tail {rest : List Char} (sign : Sign) (h : '-' ∉ rest) :
    '-' ∉ (sign.chars ++ rest).tail := by
  cases sign with
  | absent => exact fun hmem => h (List.mem_of_mem_tail hmem)
  | plus => exact h
  | minus => exact h

/-- In a numeral a minus sign is the first character or none. -/
theorem Spelling.not_mem_tail (l : Spelling) : '-' ∉ l.text.toList.tail := by
  cases l with
  | decimal sign digits =>
    rw [text, String.toList_ofList]
    apply sign.not_mem_tail
    intro hmem
    exact not_isDigit (by simp) (by simp) (digits.isDigit '-' hmem)
  | marked sign notPlus marker digits =>
    rw [text, String.toList_ofList, List.append_assoc]
    apply sign.not_mem_tail
    intro hmem
    rcases List.mem_append.mp hmem with hmem | hmem
    · cases marker <;> exact absurd hmem (by decide)
    · rcases digits.isDigit '-' hmem with hunderscore | hdigit
      · exact absurd hunderscore (by simp)
      · exact not_isDigit marker.radix_le (by simp) hdigit

/-- Not everything that is read as a number is written as one. -/
theorem not_spelling_of_value? :
    ¬ ∀ text c, value? text = some c → ∃ l : Spelling, l.text = text := by
  intro h
  obtain ⟨l, hl⟩ := h "0x_-5" (-5) (by decide +kernel)
  apply l.not_mem_tail
  rw [hl]
  decide

end MiniForth.Numeral
