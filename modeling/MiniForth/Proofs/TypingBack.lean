import MiniForth.Proofs.ControlWords
import MiniForth.Proofs.Nesting
import MiniForth.Proofs.Spelling

/-!
# Typing back what was printed

Numbers are printed in decimal, and the words of a line are read as numbers. So the parameter stack as
`.s` shows it is a text that can be typed: its words behind the depth push the cells that are shown.

* `value?_text`: the text of a cell is read as that cell.
* `texts_stackText`: the words of the stack as it is shown.
* `interpretAll?_numbers`: words that are numbers, and name nothing, are pushed.
* `printStack_typed_back`: what `.s` shows of one session can be typed into another.
-/

namespace MiniForth

/-! ## The text of a cell -/

theorem Text.toNat_of_isDigit {c : Char} (h : c.isDigit = true) : 48 ≤ c.toNat ∧ c.toNat ≤ 57 := by
  simp only [Char.isDigit, Bool.and_eq_true, decide_eq_true_eq] at h
  exact h

theorem Text.isSeparator_of_isDigit {c : Char} (h : c.isDigit = true) : isSeparator c = false := by
  obtain ⟨hlow, hhigh⟩ := toNat_of_isDigit h
  have hcomma : c ≠ ',' := by
    rintro rfl
    simp at hlow
  simp only [isSeparator, isBlank, Bool.or_eq_false_iff, Bool.and_eq_false_iff,
    decide_eq_false_iff_not, beq_eq_false_iff_ne]
  refine ⟨?_, hcomma⟩
  omega

namespace Numeral

theorem worth_digitChar {d : Nat} (h : d < 10) : worth d.digitChar = d := by
  revert d
  decide

/-- The last digit of a decimal number counts once. -/
theorem magnitude_concat (radix : Nat) (cs : List Char) (c : Char) :
    magnitude radix (cs ++ [c]) = radix * magnitude radix cs + worth c := by
  simp [magnitude, Nat.ofDigits_cons, Nat.add_comm]

theorem magnitude_toDigits (n : Nat) : magnitude 10 (Nat.toDigits 10 n) = n := by
  induction n using Nat.strongRecOn with
  | ind n ih =>
    rcases Nat.lt_or_ge n 10 with hlt | hge
    · rw [Nat.toDigits_of_lt_base hlt]
      simp [magnitude, worth_digitChar hlt]
    · rw [Nat.toDigits_of_base_le (by simp) hge, magnitude_concat, ih (n / 10) (by omega),
        worth_digitChar (Nat.mod_lt n (by simp)), Nat.div_add_mod]

theorem isDigit_ten {c : Char} (h : c.isDigit = true) : IsDigit 10 c := by
  obtain ⟨hlow, hhigh⟩ := Text.toNat_of_isDigit h
  have hrange : '0' ≤ c ∧ c ≤ '9' := ⟨hlow, hhigh⟩
  rw [IsDigit, worth_eq, if_pos hrange]
  show c.toNat - 48 < 10
  omega

/-- The decimal digits of a number. -/
def digitsOf (n : Nat) : Digits 10 where
  chars    := Nat.toDigits 10 n
  isDigit  := fun _ hc => isDigit_ten (Nat.isDigit_of_mem_toDigits (by simp) (by simp) hc)
  nonempty := Nat.toDigits_ne_nil

/-- How an integer is printed, as a numeral. -/
def Spelling.ofInt : Int → Spelling
  | .ofNat n   => .decimal .absent (digitsOf n)
  | .negSucc n => .decimal .minus (digitsOf (n + 1))

namespace Spelling

theorem text_ofInt (i : Int) : (ofInt i).text = Decimal.ofInt i := by
  cases i with
  | ofNat n => rfl
  | negSucc n =>
    apply String.toList_injective
    simp [ofInt, text, Decimal.ofInt, Sign.chars, digitsOf]

theorem value_ofInt (i : Int) : (ofInt i).value = i := by
  cases i with
  | ofNat n => exact congrArg Int.ofNat (magnitude_toDigits n)
  | negSucc n => exact congrArg (fun m : Nat => -(m : Int)) (magnitude_toDigits (n + 1))

theorem marker?_ofInt (i : Int) : (ofInt i).marker? = none := by
  cases i <;> rfl

end Spelling

/-- The text of a cell is read as that cell. -/
theorem value?_text (c : Cell) : value? c.text = some c := by
  have hfits : (Spelling.ofInt c.toInt).Fits := by
    have hle := c.le_toInt
    have hlt := c.toInt_lt
    rw [Spelling.Fits, Spelling.marker?_ofInt, Spelling.value_ofInt]
    constructor <;> omega
  have hread := map_toInt_value? (Spelling.ofInt c.toInt)
  rw [if_pos hfits, Spelling.text_ofInt, Spelling.value_ofInt] at hread
  obtain ⟨c', hc', heq⟩ := Option.map_eq_some_iff.mp hread
  rw [Cell.text, hc', Int64.toInt_inj.mp heq]

end Numeral

/-- Tokens that are written as cells are numbers. -/
theorem Token.numbers_of_texts {ts : List Token} {cells : List Cell}
    (h : ts.map text = cells.map Cell.text) : ts.map number? = cells.map some := by
  have hread : Numeral.value? ∘ Cell.text = some := funext Numeral.value?_text
  have hvalues := congrArg (List.map Numeral.value?) h
  rw [List.map_map, List.map_map, hread] at hvalues
  exact hvalues

/-! ## The words of the stack as it is shown -/

theorem Decimal.isSeparator_of_mem {n : Nat} {c : Char} (hc : c ∈ (ofNat n).toList) :
    Text.isSeparator c = false := by
  rw [toList_ofNat] at hc
  exact Text.isSeparator_of_isDigit (Nat.isDigit_of_mem_toDigits (by simp) (by simp) hc)

theorem Cell.isWord_text (c : Cell) : Text.IsWord c.text := by
  refine ⟨c.text_ne_empty, ?_⟩
  rw [Cell.text]
  intro x hx
  rcases hi : c.toInt with n | n
  · rw [hi] at hx
    exact Decimal.isSeparator_of_mem hx
  · rw [hi, Decimal.ofInt, String.toList_append] at hx
    rcases List.mem_append.mp hx with hminus | hdigit
    · obtain rfl : x = '-' := by simpa using hminus
      rfl
    · exact Decimal.isSeparator_of_mem hdigit

namespace Session

/-- How the depth of a stack is shown. -/
def depthText (depth : Nat) : String := "<" ++ Decimal.ofNat depth ++ ">"

theorem isWord_depthText (depth : Nat) : Text.IsWord (depthText depth) := by
  refine ⟨by simp [depthText], ?_⟩
  intro c hc
  simp only [depthText, String.toList_append, List.mem_append] at hc
  rcases hc with (hopen | hdigit) | hclose
  · obtain rfl : c = '<' := by simpa using hopen
    rfl
  · exact Decimal.isSeparator_of_mem hdigit
  · obtain rfl : c = '>' := by simpa using hclose
    rfl

theorem stackText_eq (s : Session) :
    s.stackText = " ".intercalate (depthText s.stack.size :: s.stack.toList.map Cell.text) := by
  rw [stackText, ← Stack.isEmpty_toList, Cell.rowText]
  rcases s.stack.toList with _ | ⟨c, cells⟩
  · simp [depthText]
  · simp only [List.map_cons, String.intercalate_cons_cons, String.append_assoc, depthText]
    rfl

/-- The words of the stack as it is shown: its depth, and then its cells. -/
theorem texts_stackText (s : Session) (path : String) (line : Nat) :
    (Token.ofLine path line s.stackText).map Token.text =
      depthText s.stack.size :: s.stack.toList.map Cell.text := by
  rw [stackText_eq]
  apply Token.texts_ofLine_intercalate
  rw [List.forall_mem_cons]
  refine ⟨isWord_depthText _, ?_⟩
  intro word hword
  obtain ⟨c, -, rfl⟩ := List.mem_map.mp hword
  exact c.isWord_text

end Session

/-! ## Words that are numbers -/

theorem Dictionary.find?_eq_none {d : Dictionary} {name : String}
    (h : ∀ word ∈ d.words, word.isVisible = true → word.name ≠ name) : d.find? name = none := by
  rcases hfind : d.find? name with _ | ⟨index, word⟩
  · rfl
  · obtain ⟨-, hget, hvisible, hname⟩ := find?_eq_some hfind
    rw [← getElem?_words] at hget
    exact absurd hname (h word (List.mem_of_getElem? hget) hvisible)

namespace Session

variable {s : Session}

/-- Where words are executed, numbers that name nothing are pushed, and nothing else happens. -/
theorem interpretAll?_numbers (fuel : Nat) {ts : List Token} {cells : List Cell}
    (hnumbers : ts.map Token.number? = cells.map some) (hmode : s.mode = .immediate)
    (hphase : s.phase ≠ .awaitingName) (hpending : s.pending = .nothing)
    (hfind : ∀ t ∈ ts, s.dictionary.find? t.text = none) :
    ∃ stack location, s.interpretAll? fuel ts = some (.ok () { s with stack, location }) ∧
      stack.toList = s.stack.toList ++ cells := by
  induction ts generalizing s cells with
  | nil =>
    obtain rfl : cells = [] := by simpa using hnumbers.symm
    exact ⟨s.stack, s.location, rfl, by simp⟩
  | cons t ts ih =>
    rcases cells with _ | ⟨c, cells⟩
    · simp at hnumbers
    · rw [List.map_cons, List.map_cons, List.cons.injEq] at hnumbers
      obtain ⟨hfirst, hnumbers⟩ := hnumbers
      obtain ⟨ht, hfind⟩ := List.forall_mem_cons.mp hfind
      have hpush : interpret? fuel { s with location := some t.location } t =
          some (.ok () (push { s with location := some t.location } c)) :=
        interpret?_eq_some_iff.mpr (.push hphase hpending ht hfirst hmode)
      obtain ⟨stack, location, hall, hstack⟩ :=
        ih (s := push { s with location := some t.location } c) hnumbers hmode hphase hpending hfind
      refine ⟨stack, location, ?_, ?_⟩
      · rw [interpretAll?_cons_of_ok hpush, hall]
        rfl
      · rw [hstack, push, Stack.toList_push, List.append_assoc, List.singleton_append]

/-- A line of numbers that name nothing does nothing but push them. -/
theorem Reachable.process?_numbers (hs : s.Reachable) (hmode : s.mode = .immediate)
    (hphase : s.phase ≠ .awaitingName) (typed : Stack Cell) {line : String}
    (hwords : Text.words line = typed.toList.map Cell.text)
    (hfind : ∀ word ∈ Text.words line, s.dictionary.find? word = none) (fuel : Nat) :
    s.process? fuel line =
      some ({}, { s with stack := typed.above s.stack.toList, lines := s.lines + 1 }) := by
  have htexts := Text.texts_ofLine source s.startLine.lines line
  have hnumbers := Token.numbers_of_texts (htexts.trans hwords)
  have hnames : ∀ t ∈ Token.ofLine source s.startLine.lines line,
      s.dictionary.find? t.text = none := by
    intro t ht
    apply hfind
    rw [← htexts]
    exact List.mem_map_of_mem ht
  obtain ⟨stack, location, hall, hstack⟩ :=
    interpretAll?_numbers fuel (s := s.startLine) hnumbers hmode hphase rfl hnames
  obtain rfl : stack = typed.above s.stack.toList := by
    apply Stack.ext_toList
    rw [hstack, Stack.toList_above]
    rfl
  rw [process?, hall, Option.map_some]
  exact congrArg some (respond_withStack hs.endLine_eq _ location)

/-- What `.s` shows of a stack is its depth and words that are its cells as numbers. Typed into any session
in which words are executed, and none of these words names anything, they push those cells and change
nothing else. -/
theorem printStack_typed_back (shown : Session) :
    Primitive.printStack.perform shown = .ok .next (shown.emit shown.stackText) ∧
    ∀ path number, ∃ depth ts, Token.ofLine path number shown.stackText = depth :: ts ∧
      depth.text = "<" ++ Decimal.ofNat shown.stack.size ++ ">" ∧
      ts.map Token.number? = shown.stack.toList.map some ∧
      ∀ (s : Session) (line : String) (fuel : Nat), s.Reachable → s.mode = .immediate →
        s.phase ≠ .awaitingName → Text.words line = ts.map Token.text →
        (∀ word ∈ s.dictionary.words, word.isVisible = true → word.name ∉ ts.map Token.text) →
        s.process? fuel line = some ({}, { s with
          stack := shown.stack.above s.stack.toList
          lines := s.lines + 1 }) := by
  refine ⟨Primitive.perform_printStack shown, ?_⟩
  intro path number
  obtain ⟨depth, ts, htokens, hdepth, hcells⟩ :=
    List.map_eq_cons_iff.mp (shown.texts_stackText path number)
  refine ⟨depth, ts, htokens, hdepth, ?_, ?_⟩
  · exact Token.numbers_of_texts hcells
  · intro s line fuel hs hmode hphase hwords hnames
    refine hs.process?_numbers hmode hphase shown.stack (hwords.trans hcells) ?_ fuel
    intro word hword
    apply Dictionary.find?_eq_none
    rintro named hnamed hvisible rfl
    exact hnames named hnamed hvisible (hwords ▸ hword)

/-- A session after `: 5 dup ; 3`, where `5` is a word. -/
def numberedWithThree : Session := { numbered with stack := ⟨#[3]⟩ }

/-- Both ends of the numbers there are, typed into a session in which another number is a word. -/
theorem limits_typed_back : numberedWithThree.Reachable ∧
    numberedWithThree.process? 0 "-9223372036854775808,0\t9223372036854775807" =
      some ({}, { numberedWithThree with
        stack := ⟨#[3, -9223372036854775808, 0, 9223372036854775807]⟩
        lines := 2 }) := by
  let shown : Session :=
    { Session.initial with stack := ⟨#[-9223372036854775808, 0, 9223372036854775807]⟩ }
  have hprocess : process? 0 .initial ": 5 dup ; 3" = some ({}, numberedWithThree) := by decide +kernel
  have hreachable : numberedWithThree.Reachable := .line .initial hprocess
  obtain ⟨depth, ts, htokens, -, -, htyped⟩ := (printStack_typed_back shown).2 source 1
  have hwords : ts.map Token.text = ["-9223372036854775808", "0", "9223372036854775807"] := by
    have htexts : (Token.ofLine source 1 shown.stackText).map Token.text =
        ["<3>", "-9223372036854775808", "0", "9223372036854775807"] := by decide +kernel
    rw [htokens] at htexts
    exact (List.cons.inj htexts).2
  refine ⟨hreachable, htyped numberedWithThree _ 0 hreachable rfl (by decide) ?_ ?_⟩
  · rw [hwords]
    decide +kernel
  · rw [hwords]
    decide +kernel

end Session

end MiniForth
