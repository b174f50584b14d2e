import Mathlib.Data.List.Induction
import MiniForth.Proofs.Compiling

/-!
# The list of the visible names

`Dictionary.find?` searches the words for a name, from the newest one on. `Dictionary.visibleNames` goes
over all words in the same order and leaves out the names it has met before. Both follow the dictionary
word by word, and so does the comparison: by `Dictionary.induction`, from a dictionary to the one with a
further word.

* `visibleNames_add`: what a new word does to the list.
* `find?_eq_some_iff`: which of the words of a name is found.
* `visibleNames_find?`: the list has each name that is found, once, in the order of what is found.
-/

namespace MiniForth

/-- To drop elements makes no difference to which of the others come again. -/
theorem eraseDups_filter {α : Type} [BEq α] [LawfulBEq α] (p : α → Bool) (l : List α) :
    (l.filter p).eraseDups = l.eraseDups.filter p := by
  induction h : l.length using Nat.strongRecOn generalizing l with
  | ind n ih =>
    subst h
    rcases l with _ | ⟨a, l⟩
    · rfl
    · have hlt : (l.filter fun b => !b == a).length < (a :: l).length :=
        Nat.lt_succ_of_le (List.length_filter_le _ l)
      have hrest := ih _ hlt (l.filter fun b => !b == a) rfl
      rw [List.eraseDups_cons]
      rcases ha : p a
      · -- What is kept differs from `a`.
        have hkept : (l.filter fun b => !b == a).filter p = l.filter p := by
          rw [List.filter_filter]
          apply List.filter_congr
          intro b _
          by_cases hb : b = a
          · rw [hb, ha, Bool.false_and]
          · simp [hb]
        rw [List.filter_cons_of_neg (by simp [ha]), List.filter_cons_of_neg (by simp [ha]), ← hrest,
          hkept]
      · rw [List.filter_cons_of_pos ha, List.filter_cons_of_pos ha, List.eraseDups_cons, ← hrest,
          List.filter_filter, List.filter_filter]
        simp only [Bool.and_comm]

namespace Dictionary

theorem addAll_empty_words (d : Dictionary) : empty.addAll d.words = d := by
  obtain ⟨entries⟩ := d
  have hwords : (empty.addAll entries.toList).entries.toList = entries.toList :=
    words_addAll empty entries.toList
  exact congrArg Dictionary.mk (Array.toList_inj.mp hwords)

/-- Every dictionary is the empty one with words added. -/
@[elab_as_elim]
theorem induction {motive : Dictionary → Prop} (empty : motive .empty)
    (add : ∀ d word, motive d → motive (d.add word)) (d : Dictionary) : motive d := by
  rw [← d.addAll_empty_words]
  induction d.words using List.reverseRecOn with
  | nil => exact empty
  | append_singleton words word ih =>
    rw [addAll, List.foldl_append]
    exact add _ word ih

@[simp] theorem find?_empty (name : String) : empty.find? name = none := rfl

/-! ## Which word is found -/

/-- The word at `index` is visible and called `name`, and no newer word is both. -/
structure Newest (d : Dictionary) (name : String) (index : Nat) (word : Word) : Prop where
  get     : d.get? index = some word
  visible : word.isVisible = true
  named   : word.name = name
  newest  : ∀ other word', d.get? other = some word' → word'.isVisible = true → word'.name = name →
    other ≤ index

variable {d : Dictionary} {name : String} {index : Nat} {word new : Word}

/-- A new word is the newest one of its name, if it is visible. -/
theorem newest_add_self (hnew : new.isVisible = true) (hname : new.name = name) :
    (d.add new).Newest name index word ↔ index = d.size ∧ word = new := by
  have hlast : (d.add new).get? d.size = some new := by rw [get?_add, if_pos rfl]
  constructor
  · intro h
    have hle : d.size ≤ index := h.newest d.size new hlast hnew hname
    have hlt : index < (d.add new).size := lt_size_of_get? h.get
    rw [size_add] at hlt
    obtain rfl : index = d.size := by omega
    exact ⟨rfl, Option.some.inj (h.get.symm.trans hlast)⟩
  · rintro ⟨rfl, rfl⟩
    refine ⟨hlast, hnew, hname, ?_⟩
    intro other word' hother _ _
    have hlt : other < (d.add word).size := lt_size_of_get? hother
    rw [size_add] at hlt
    omega

/-- A new word that is not visible, or has another name, makes no difference. -/
theorem newest_add_of_not (hnew : ¬ (new.isVisible = true ∧ new.name = name)) :
    (d.add new).Newest name index word ↔ d.Newest name index word := by
  have hsame : ∀ i w, w.isVisible = true → w.name = name →
      ((d.add new).get? i = some w ↔ d.get? i = some w) := by
    intro i w hvisible hname
    rw [get?_add]
    split
    · next hi =>
      subst hi
      constructor
      · intro h
        cases h
        exact absurd ⟨hvisible, hname⟩ hnew
      · intro h
        exact absurd (lt_size_of_get? h) (Nat.lt_irrefl _)
    · exact Iff.rfl
  constructor
  · intro h
    refine ⟨(hsame _ _ h.visible h.named).mp h.get, h.visible, h.named, ?_⟩
    intro other w hother hvisible hname
    exact h.newest other w ((hsame _ _ hvisible hname).mpr hother) hvisible hname
  · intro h
    refine ⟨(hsame _ _ h.visible h.named).mpr h.get, h.visible, h.named, ?_⟩
    intro other w hother hvisible hname
    exact h.newest other w ((hsame _ _ hvisible hname).mp hother) hvisible hname

/-- What is found is the newest one of the visible words of that name. -/
theorem find?_eq_some_iff : d.find? name = some (index, word) ↔ d.Newest name index word := by
  induction d using Dictionary.induction with
  | empty =>
    constructor
    · intro h
      cases h
    · intro h
      exact absurd (lt_size_of_get? h.get) (Nat.not_lt_zero index)
  | add d new ih =>
    rw [find?_add]
    by_cases hnew : new.isVisible = true ∧ new.name = name
    · have hfound : (new.isVisible && new.name == name) = true := by simpa using hnew
      rw [if_pos hfound, newest_add_self hnew.1 hnew.2, Option.some.injEq, Prod.mk.injEq, eq_comm,
        @eq_comm _ new word]
    · have hfound : ¬ (new.isVisible && new.name == name) = true := by simpa using hnew
      rw [if_neg hfound, newest_add_of_not hnew, ih]

/-! ## The list -/

theorem visibleNames_empty : empty.visibleNames = [] := rfl

/-- A new word comes first, if it is visible, and an older one of its name leaves the list. -/
theorem visibleNames_add (d : Dictionary) (new : Word) : (d.add new).visibleNames =
    if new.isVisible then new.name :: d.visibleNames.filter (· != new.name) else d.visibleNames := by
  rw [visibleNames, words_add, List.reverse_append, List.reverse_singleton, List.singleton_append,
    List.filter_cons]
  split
  · rw [List.map_cons, List.eraseDups_cons, eraseDups_filter]
    rfl
  · rfl

theorem nodup_visibleNames (d : Dictionary) : d.visibleNames.Nodup := by
  induction d using Dictionary.induction with
  | empty => exact List.nodup_nil
  | add d new ih =>
    rw [visibleNames_add]
    split
    · rw [List.nodup_cons]
      exact ⟨by simp, ih.filter _⟩
    · exact ih

/-- Exactly the names that are found are listed. -/
theorem mem_visibleNames_iff : name ∈ d.visibleNames ↔ (d.find? name).isSome := by
  induction d using Dictionary.induction with
  | empty => simp [visibleNames_empty]
  | add d new ih =>
    rw [visibleNames_add, find?_add]
    by_cases hname : new.name = name
    · subst hname
      rcases hnew : new.isVisible
      · simpa using ih
      · simp
    · have hname' : name ≠ new.name := fun h => hname h.symm
      rcases hnew : new.isVisible
      · simpa using ih
      · simpa [hname, hname'] using ih

/-- The index of the word that is found. -/
def indexOf? (d : Dictionary) (name : String) : Option Nat := (d.find? name).map Prod.fst

theorem indexOf?_add_of_ne (hname : name ≠ new.name) : (d.add new).indexOf? name = d.indexOf? name := by
  have hother : ¬ (new.isVisible && new.name == name) = true := by simp [hname.symm]
  rw [indexOf?, find?_add, if_neg hother, indexOf?]

theorem indexOf?_add_of_hidden (hnew : new.isVisible = false) :
    (d.add new).indexOf? name = d.indexOf? name := by
  have hother : ¬ (new.isVisible && new.name == name) = true := by simp [hnew]
  rw [indexOf?, find?_add, if_neg hother, indexOf?]

/-- The names are listed in the order of the words that are found, from the newest on. -/
theorem indices_decrease (d : Dictionary) : ∃ indices : List Nat,
    d.visibleNames.map d.indexOf? = indices.map some ∧ indices.Pairwise (· > ·) ∧
      ∀ index ∈ indices, index < d.size := by
  induction d using Dictionary.induction with
  | empty => exact ⟨[], rfl, .nil, by simp⟩
  | add d new ih =>
    obtain ⟨indices, hindices, hdecrease, hlt⟩ := ih
    rcases hnew : new.isVisible
    · refine ⟨indices, ?_, hdecrease, ?_⟩
      · rw [visibleNames_add, hnew, if_neg Bool.false_ne_true, ← hindices]
        exact List.map_congr_left fun name _ => indexOf?_add_of_hidden hnew
      · intro index hindex
        rw [size_add]
        exact Nat.lt_succ_of_lt (hlt index hindex)
    · -- The older names that stay are found where they were.
      obtain ⟨kept, hkept, hsame⟩ : ∃ kept : List Nat, kept.Sublist indices ∧
          (d.visibleNames.filter (· != new.name)).map d.indexOf? = kept.map some := by
        apply List.sublist_map_iff.mp
        rw [← hindices]
        exact List.filter_sublist.map _
      have hself : (d.add new).indexOf? new.name = some d.size := by
        rw [indexOf?, find?_add, if_pos (by simp [hnew]), Option.map_some]
      refine ⟨d.size :: kept, ?_, ?_, ?_⟩
      · rw [visibleNames_add, hnew, if_pos rfl, List.map_cons, List.map_cons, hself, ← hsame]
        congr 1
        apply List.map_congr_left
        intro name hname
        exact indexOf?_add_of_ne (by simpa using (List.mem_filter.mp hname).2)
      · exact List.pairwise_cons.mpr
          ⟨fun index hindex => hlt index (hkept.subset hindex), hdecrease.sublist hkept⟩
      · intro index hindex
        rw [size_add]
        rcases List.mem_cons.mp hindex with rfl | hindex
        · exact Nat.lt_succ_self _
        · exact Nat.lt_succ_of_lt (hlt index (hkept.subset hindex))

theorem empty_not_mem_visibleNames (d : Dictionary) : "" ∉ d.visibleNames := by
  rw [visibleNames, List.mem_eraseDups, List.mem_map]
  rintro ⟨word, hword, hname⟩
  have hvisible : word.isVisible = true := (List.mem_filter.mp hword).2
  simp [Word.isVisible, hname] at hvisible

/-- The list and the search agree: each name that is found is listed, and listed once, in the order of
the words that are found; what is found is the newest visible word of the name. -/
theorem visibleNames_find? (d : Dictionary) :
    d.visibleNames.Nodup ∧ "" ∉ d.visibleNames ∧
      (∀ name, name ∈ d.visibleNames ↔ (d.find? name).isSome) ∧
      (∃ indices : List Nat,
        d.visibleNames.map (fun name => (d.find? name).map Prod.fst) = indices.map some ∧
          indices.Pairwise (· > ·)) ∧
      ∀ name index word, d.find? name = some (index, word) ↔ d.Newest name index word := by
  obtain ⟨indices, hindices, hdecrease, -⟩ := d.indices_decrease
  exact ⟨d.nodup_visibleNames, d.empty_not_mem_visibleNames, fun _ => mem_visibleNames_iff,
    ⟨indices, hindices, hdecrease⟩, fun _ _ _ => find?_eq_some_iff⟩

/-- A hidden word shadows nothing, and a name that is shadowed has the place of the newer word. -/
example : visibleNames (empty.addAll
    [{ name := "a", behavior := .compiled 0 }, { name := "b", behavior := .compiled 1 },
     { name := "a", behavior := .compiled 2 }, { name := "b", behavior := .compiled 3, hidden := true }]) =
    ["a", "b"] := by
  decide

end Dictionary

end MiniForth
