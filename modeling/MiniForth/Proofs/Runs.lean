import MiniForth.Proofs.Tokens

/-!
# The words of a line as its maximal runs

Tokenizing without a reader. The words of a line are the stretches of characters without a separator that
cannot be made longer, from left to right, and each stands where its stretch begins.

* `isMaximalRun_iff`: a stretch cannot be made longer when separators set it off, or the ends of the line.
* `mem_ofLine_iff`, `pairwise_ofReader`: the words are the maximal runs, each once and in their order.
* `Text.Layout`: words that are put together with separators, and that come back as they are.
-/

namespace MiniForth

namespace Text

/-! ## Runs -/

/-- From position `start` up to `stop` the line has characters that are no separators, one at least. -/
structure IsRun (chars : List Char) (start stop : Nat) : Prop where
  lt_stop : start < stop
  isWord  : ∀ i, start ≤ i → i < stop → ∃ c, chars[i]? = some c ∧ isSeparator c = false

/-- A run that is part of no other one. -/
structure IsMaximalRun (chars : List Char) (start stop : Nat) : Prop
    extends IsRun chars start stop where
  maximal : ∀ start' stop', IsRun chars start' stop' → start' ≤ start → stop ≤ stop' →
    start' = start ∧ stop' = stop

section

variable {chars : List Char} {start stop : Nat}

theorem IsRun.le_length (h : IsRun chars start stop) : stop ≤ chars.length := by
  have hlt := h.lt_stop
  obtain ⟨c, hc, -⟩ := h.isWord (stop - 1) (by omega) (by omega)
  have hlast := (List.getElem?_eq_some_iff.mp hc).1
  omega

theorem IsRun.not_isSeparator (h : IsRun chars start stop) {i : Nat} (hstart : start ≤ i)
    (hstop : i < stop) {c : Char} (hc : chars[i]? = some c) : isSeparator c = false := by
  obtain ⟨c', hc', hword⟩ := h.isWord i hstart hstop
  rw [hc] at hc'
  rwa [Option.some.inj hc']

/-- A run is longer by a character in front of it. -/
theorem IsRun.extend_left {i : Nat} (h : IsRun chars (i + 1) stop) {c : Char}
    (hc : chars[i]? = some c) (hword : isSeparator c = false) : IsRun chars i stop := by
  refine ⟨Nat.lt_of_succ_lt h.lt_stop, ?_⟩
  intro j hi hj
  rcases Nat.eq_or_lt_of_le hi with rfl | hlt
  · exact ⟨c, hc, hword⟩
  · exact h.isWord j hlt hj

/-- A run is longer by a character behind it. -/
theorem IsRun.extend_right (h : IsRun chars start stop) {c : Char} (hc : chars[stop]? = some c)
    (hword : isSeparator c = false) : IsRun chars start (stop + 1) := by
  refine ⟨Nat.lt_succ_of_lt h.lt_stop, ?_⟩
  intro j hstart hj
  rcases Nat.eq_or_lt_of_le (Nat.le_of_lt_succ hj) with rfl | hlt
  · exact ⟨c, hc, hword⟩
  · exact h.isWord j hstart hlt

theorem IsMaximalRun.isSeparator_behind {i : Nat} (h : IsMaximalRun chars (i + 1) stop) {c : Char}
    (hc : chars[i]? = some c) : isSeparator c = true := by
  cases hsep : isSeparator c with
  | true => rfl
  | false =>
    have hrun := h.toIsRun.extend_left hc hsep
    have heq := (h.maximal _ _ hrun (Nat.le_succ i) (Nat.le_refl stop)).1
    omega

theorem IsMaximalRun.isSeparator_ahead (h : IsMaximalRun chars start stop) {c : Char}
    (hc : chars[stop]? = some c) : isSeparator c = true := by
  cases hsep : isSeparator c with
  | true => rfl
  | false =>
    have hrun := h.toIsRun.extend_right hc hsep
    have heq := (h.maximal _ _ hrun (Nat.le_refl start) (Nat.le_succ stop)).2
    omega

/-- A run is maximal if it has a separator in front of it and behind it, where it is not at an end of the
line. -/
theorem isMaximalRun_iff : IsMaximalRun chars start stop ↔ IsRun chars start stop ∧
    (∀ c ∈ (chars.take start).getLast?, isSeparator c = true) ∧
    ∀ c ∈ (chars.drop stop).head?, isSeparator c = true := by
  have hlast {i : Nat} (hi : i < chars.length) : (chars.take (i + 1)).getLast? = chars[i]? := by
    rw [List.getLast?_take, if_neg (Nat.succ_ne_zero i), Nat.add_sub_cancel,
      List.getElem?_eq_getElem hi]
    rfl
  rw [List.head?_drop]
  constructor
  · intro h
    refine ⟨h.toIsRun, ?_, fun c => h.isSeparator_ahead⟩
    rcases start with _ | i
    · simp
    · rw [hlast (Nat.lt_of_lt_of_le (Nat.lt_of_succ_lt h.lt_stop) h.le_length)]
      exact fun c => h.isSeparator_behind
  · rintro ⟨h, hfront, hback⟩
    have hlt := h.lt_stop
    refine ⟨h, ?_⟩
    -- A longer run would have one of the two separators in it.
    intro start' stop' hrun hle hge
    constructor
    · rcases Nat.eq_or_lt_of_le hle with heq | hless
      · exact heq
      · obtain ⟨i, rfl⟩ : ∃ i, start = i + 1 := ⟨start - 1, by omega⟩
        obtain ⟨c, hc, hword⟩ := hrun.isWord i (by omega) (by omega)
        rw [← hlast (List.getElem?_eq_some_iff.mp hc).1] at hc
        rw [hfront c hc] at hword
        cases hword
    · rcases Nat.eq_or_lt_of_le hge with heq | hless
      · exact heq.symm
      · obtain ⟨c, hc, hword⟩ := hrun.isWord stop (by omega) hless
        rw [hback c hc] at hword
        cases hword

end

theorem isRun_iff_isWord (before word after : String) :
    IsRun (before ++ word ++ after).toList before.length (before ++ word).length ↔ IsWord word := by
  have hchar {i : Nat} (hi : i < word.length) :
      (before ++ word ++ after).toList[before.length + i]? = word.toList[i]? := by
    rw [String.toList_append, String.toList_append, List.append_assoc,
      List.getElem?_append_right (by simp [String.length_toList]), String.length_toList,
      Nat.add_sub_cancel_left, List.getElem?_append_left (by rwa [String.length_toList])]
  have hlength : (before ++ word).length = before.length + word.length := String.length_append _ _
  constructor
  · intro h
    refine ⟨?_, ?_⟩
    · rintro rfl
      exact absurd h.lt_stop (by simp)
    · intro c hc
      obtain ⟨i, hi⟩ := List.mem_iff_getElem?.mp hc
      have hlt : i < word.length := by
        rw [← String.length_toList]
        exact (List.getElem?_eq_some_iff.mp hi).1
      rw [← hchar hlt] at hi
      exact h.not_isSeparator (by omega) (by omega) hi
  · intro h
    have hpos : 0 < word.length := by
      rw [← String.length_toList]
      exact List.length_pos_iff.mpr h.toList_ne_nil
    refine ⟨by omega, ?_⟩
    intro i hstart hstop
    obtain ⟨j, rfl⟩ := Nat.exists_eq_add_of_le hstart
    have hj : j < word.length := by omega
    rw [hchar hj, List.getElem?_eq_getElem (by rwa [String.length_toList])]
    exact ⟨_, rfl, h.2 _ (List.getElem_mem _)⟩

/-- A word stands in a line where it is a maximal run. -/
theorem isMaximalRun_iff_stands (before word after : String) :
    IsMaximalRun (before ++ word ++ after).toList before.length (before ++ word).length ↔
      Stands before word after := by
  have hbehind : (before ++ word ++ after).toList.take before.length = before.toList := by
    rw [String.append_assoc, String.toList_append, ← String.length_toList, List.take_left]
  have hahead : (before ++ word ++ after).toList.drop (before ++ word).length = after.toList := by
    rw [String.toList_append, ← String.length_toList, List.drop_left]
  rw [isMaximalRun_iff, isRun_iff_isWord, hbehind, hahead]
  exact ⟨fun h => ⟨h.1, h.2.1, h.2.2⟩, fun h => ⟨h.isWord, h.behind, h.ahead⟩⟩

theorem exists_append {text : String} {start stop : Nat} (hstart : start ≤ stop)
    (hstop : stop ≤ text.toList.length) : ∃ before word after : String,
      text = before ++ word ++ after ∧ before.length = start ∧ (before ++ word).length = stop := by
  refine ⟨String.ofList (text.toList.take start),
    String.ofList ((text.toList.take stop).drop start), String.ofList (text.toList.drop stop),
    ?_, ?_, ?_⟩
  · have htake : text.toList.take start = (text.toList.take stop).take start := by
      rw [List.take_take, Nat.min_eq_left hstart]
    rw [← String.ofList_append, ← String.ofList_append, htake, List.take_append_drop,
      List.take_append_drop, String.ofList_toList]
  · rw [String.length_ofList, List.length_take, Nat.min_eq_left (Nat.le_trans hstart hstop)]
  · simp only [String.length_append, String.length_ofList, List.length_take, List.length_drop]
    omega

end Text

namespace Token

/-- The token that a line has from position `start` up to `stop`. -/
def cut (path : String) (line : Nat) (text : String) (start stop : Nat) : Token where
  text     := String.ofList (text.toList.extract start stop)
  location := { path, line, column := start + 1 }

theorem cut_append (path : String) (line : Nat) (before word after : String) :
    cut path line (before ++ word ++ after) before.length (before ++ word).length =
      { text := word, location := { path, line, column := before.length + 1 } } := by
  have hword : (before ++ word ++ after).toList.extract before.length (before ++ word).length =
      word.toList := by
    rw [String.append_assoc, String.toList_append, String.toList_append, String.length_append,
      List.extract_eq_take_drop, Nat.add_sub_cancel_left, List.drop_left' String.length_toList,
      List.take_left' String.length_toList]
  rw [cut, hword, String.ofList_toList]

/-- The words of a line are its maximal runs. -/
theorem mem_ofLine_iff {path : String} {line : Nat} {text : String} {t : Token} :
    t ∈ ofLine path line text ↔
      ∃ start stop, Text.IsMaximalRun text.toList start stop ∧ t = cut path line text start stop := by
  constructor
  · intro ht
    obtain ⟨ts, ts', hts⟩ := List.append_of_mem ht
    obtain ⟨before, word, after, hrest, hstands, rfl, -⟩ := exists_stands _ ts hts
    obtain rfl : text = before ++ word ++ after := String.toList_injective hrest
    refine ⟨before.length, (before ++ word).length,
      (Text.isMaximalRun_iff_stands before word after).mpr hstands, ?_⟩
    rw [cut_append, Nat.add_comm]
    rfl
  · rintro ⟨start, stop, hrun, rfl⟩
    obtain ⟨before, word, after, rfl, rfl, rfl⟩ :=
      Text.exists_append (Nat.le_of_lt hrun.lt_stop) hrun.le_length
    obtain ⟨ts, hts⟩ :=
      ofLine_stands ((Text.isMaximalRun_iff_stands before word after).mp hrun) path line
    rw [cut_append, hts]
    simp

theorem le_column {r : Reader} {t : Token} (ht : t ∈ ofReader r) :
    r.location.column ≤ t.location.column := by
  obtain ⟨ts, ts', hts⟩ := List.append_of_mem ht
  obtain ⟨before, word, after, -, -, rfl, -⟩ := exists_stands r ts hts
  exact Nat.le_add_right _ _

/-- The words are read from left to right, and each once. -/
theorem pairwise_ofReader (r : Reader) :
    (ofReader r).Pairwise fun t t' => t.location.column < t'.location.column := by
  induction r using ofReader.induct with
  | case1 r start read hread =>
    rw [ofReader, dif_pos hread]
    exact List.Pairwise.nil
  | case2 r start read hread ih =>
    rw [ofReader, dif_neg hread, List.pairwise_cons]
    refine ⟨?_, ih⟩
    intro t ht
    calc start.location.column
      _ < start.location.column + read.1.length :=
        Nat.lt_add_of_pos_right (List.length_pos_iff.mpr hread)
      _ ≤ t.location.column := le_column ht

end Token

namespace Text

/-! ## Putting a line together -/

/-- Has the text nothing but separators? -/
def IsGap (text : String) : Prop := ∀ c ∈ text.toList, isSeparator c = true

instance (text : String) : Decidable (IsGap text) := List.decidableBAll _ _

/-- Words with separators at both ends and between them. -/
structure Layout where
  /-- What stands in front of the first word. -/
  lead : String
  /-- The words, and what stands behind each of them. -/
  parts : List (String × String)
  isGap_lead : IsGap lead
  isWord     : ∀ part ∈ parts, IsWord part.1
  isGap      : ∀ part ∈ parts, IsGap part.2
  /-- Only behind the last word the line may end. -/
  apart : ∀ part ∈ parts.dropLast, part.2 ≠ ""

namespace Layout

/-- The words without what stands between them. -/
def words (l : Layout) : List String := l.parts.map Prod.fst

/-- The line. -/
def text (l : Layout) : String := l.lead ++ String.join (l.parts.map fun part => part.1 ++ part.2)

end Layout

theorem spread_join {parts : List (String × String)} (hwords : ∀ part ∈ parts, IsWord part.1)
    (hgaps : ∀ part ∈ parts, IsGap part.2) (hapart : ∀ part ∈ parts.dropLast, part.2 ≠ "")
    {lead : List Char} (hlead : ∀ c ∈ lead, isSeparator c = true) :
    Spread (parts.map Prod.fst)
      (lead ++ (String.join (parts.map fun part => part.1 ++ part.2)).toList) := by
  induction parts generalizing lead with
  | nil =>
    apply Spread.nil
    simpa using hlead
  | cons part parts ih =>
    obtain ⟨word, gap⟩ := part
    obtain ⟨hword, hwords⟩ := List.forall_mem_cons.mp hwords
    obtain ⟨hgap, hgaps⟩ := List.forall_mem_cons.mp hgaps
    have hrest : ∀ part ∈ parts.dropLast, part.2 ≠ "" := by
      intro part hpart
      apply hapart
      rw [List.dropLast_cons_of_ne_nil]
      · exact List.mem_cons_of_mem _ hpart
      · rintro rfl
        simp at hpart
    have hnext : ∀ c ∈ (gap.toList ++
        (String.join (parts.map fun part => part.1 ++ part.2)).toList).head?,
        isSeparator c = true := by
      rcases hchars : gap.toList with _ | ⟨x, xs⟩
      · -- Only the last gap can be empty, and then the line is at its end.
        rcases parts with _ | ⟨next, parts⟩
        · simp
        · exact absurd (String.toList_eq_nil_iff.mp hchars) (hapart (word, gap) (by simp))
      · rintro _ ⟨⟩
        exact hgap x (by simp [hchars])
    rw [List.map_cons, List.map_cons, String.join_cons, String.toList_append, String.toList_append,
      List.append_assoc, ← List.append_assoc]
    exact .cons hlead hword hnext (ih hwords hgaps hrest hgap)

theorem Layout.spread (l : Layout) : Spread l.words l.text.toList := by
  rw [text, String.toList_append]
  exact spread_join l.isWord l.isGap l.apart l.isGap_lead

end Text

/-- The words of a line are its maximal runs, in their order, and each stands where its run begins. So words
that are put together with separators come back. -/
theorem Token.ofLine_maximal_runs (path : String) (line : Nat) :
    (∀ text t, t ∈ ofLine path line text ↔
      ∃ start stop, Text.IsMaximalRun text.toList start stop ∧ t = cut path line text start stop) ∧
    (∀ text, (ofLine path line text).Pairwise fun t t' => t.location.column < t'.location.column) ∧
    ∀ l : Text.Layout, (ofLine path line l.text).map Token.text = l.words :=
  ⟨fun _ _ => mem_ofLine_iff, fun _ => pairwise_ofReader _, fun l => texts_ofReader_of_spread l.spread⟩

/-- Three words, with separators of all kinds around them; the last one ends the line. -/
example :
    let layout : Text.Layout :=
      { lead := ", ", parts := [("1+2", "\t,,"), ("dup", "\u3000"), ("é", "")],
        isGap_lead := by decide, isWord := by decide, isGap := by decide, apart := by decide }
    layout.text = ", 1+2\t,,dup\u3000é" ∧ layout.words = ["1+2", "dup", "é"] ∧
      Token.ofLine "<repl>" 1 layout.text =
        [⟨"1+2", ⟨"<repl>", 1, 3⟩⟩, ⟨"dup", ⟨"<repl>", 1, 9⟩⟩, ⟨"é", ⟨"<repl>", 1, 13⟩⟩] := by
  decide +kernel

end MiniForth
