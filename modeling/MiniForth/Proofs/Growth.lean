import MiniForth.Proofs.Refinement

/-!
# The dictionary only grows

Words are added at the end and never removed. Of the words that are there only the newest can change,
and only in its name and in whether it is hidden.

`Dictionary.Evolves` lists the changes. Everything that a session does is shown to make such changes
only, so that a property of all dictionaries needs a proof for each change and nothing else.

* `Evolves.grows`: a word keeps its index, its behavior, whether it is immediate, and its name.
* `Reachable.standard`: the initial words stay what they are, and all others were compiled.
-/

namespace MiniForth

/-- What a word may turn into. -/
structure Word.Becomes (w w' : Word) : Prop where
  behavior  : w'.behavior = w.behavior
  immediate : w'.immediate = w.immediate
  name      : w.name ≠ "" → w'.name = w.name

theorem Word.Becomes.refl (w : Word) : w.Becomes w := ⟨rfl, rfl, fun _ => rfl⟩

theorem Word.Becomes.trans {w w' w'' : Word} (h : w.Becomes w') (h' : w'.Becomes w'') :
    w.Becomes w'' := by
  refine ⟨h'.behavior.trans h.behavior, h'.immediate.trans h.immediate, ?_⟩
  intro hname
  have hname' : w'.name = w.name := h.name hname
  rw [← hname']
  exact h'.name (by rwa [hname'])

/-- Hiding and revealing are no harm. -/
theorem Word.becomes_setHidden (w : Word) (hidden : Bool) : w.Becomes { w with hidden } :=
  ⟨rfl, rfl, fun _ => rfl⟩

namespace Dictionary

/-! ## Words at their indices -/

theorem get?_eq_none_iff (d : Dictionary) (index : Nat) : d.get? index = none ↔ d.size ≤ index := by
  simp [get?, size]

theorem lt_size_of_get? {d : Dictionary} {index : Nat} {word : Word}
    (h : d.get? index = some word) : index < d.size := by
  apply Nat.lt_of_not_le
  intro hle
  rw [(d.get?_eq_none_iff index).mpr hle] at h
  cases h

theorem get?_add (d : Dictionary) (word : Word) (index : Nat) :
    (d.add word).get? index = if index = d.size then some word else d.get? index := by
  show (d.entries.push word)[index]? = _
  rw [Array.getElem?_push]
  rfl

theorem size_add (d : Dictionary) (word : Word) : (d.add word).size = d.size + 1 := by
  simp [size, add]

/-- A change leaves every word at its index, as it is or as the change has it. -/
theorem get?_of_changeLast? {d d' : Dictionary} {f : Word → Option Word}
    (h : d.changeLast? f = some d') (index : Nat) :
    d'.get? index = d.get? index ∨
      ∃ last changed, index + 1 = d.size ∧ d.last? = some last ∧ d.get? index = some last ∧
        f last = some changed ∧ d'.get? index = some changed := by
  obtain ⟨older, last, changed, hwords, hchanged, hwords'⟩ := words_of_changeLast? h
  have hget : d.get? index = (older ++ [last])[index]? := by rw [← getElem?_words, hwords]
  have hget' : d'.get? index = (older ++ [changed])[index]? := by rw [← getElem?_words, hwords']
  rw [hget, hget']
  -- Below the last word nothing is changed, and behind it there is nothing.
  rcases Nat.lt_trichotomy index older.length with hlt | rfl | hgt
  · left
    rw [List.getElem?_append_left hlt, List.getElem?_append_left hlt]
  · right
    have hsize : older.length + 1 = d.size := by rw [← length_words, hwords]; simp
    have hlast : d.last? = some last := by rw [← getLast?_words, hwords]; simp
    exact ⟨last, changed, hsize, hlast, by simp, hchanged, by simp⟩
  · left
    rw [List.getElem?_eq_none (by simp; omega), List.getElem?_eq_none (by simp; omega)]

/-- Every word comes from one at the same index, which a change may have changed. -/
theorem exists_of_get?_changeLast? {d : Dictionary} {f : Word → Option Word} {index : Nat}
    {word : Word} (h : ((d.changeLast? f).getD d).get? index = some word) :
    ∃ old, d.get? index = some old ∧ (word = old ∨ f old = some word) := by
  rcases hd : d.changeLast? f with _ | d'
  · rw [hd] at h
    exact ⟨word, h, .inl rfl⟩
  · rw [hd, Option.getD_some] at h
    rcases get?_of_changeLast? hd index with hsame | ⟨last, changed, -, -, hlast, hchanged, hget⟩
    · exact ⟨word, hsame ▸ h, .inl rfl⟩
    · rw [hget] at h
      cases h
      exact ⟨last, hlast, .inr hchanged⟩

/-! ## The changes there are -/

/-- The dictionaries that a dictionary can turn into. -/
inductive Evolves (d : Dictionary) : Dictionary → Prop where
  | refl : Evolves d d
  | add {d' : Dictionary} (entry : Nat) : Evolves d d' →
      Evolves d (d'.add { name := "", hidden := true, behavior := .compiled entry })
  | name {d' d'' : Dictionary} {name : String} : Evolves d d' → d'.nameLast? name = some d'' →
      Evolves d d''
  | hide {d' d'' : Dictionary} : Evolves d d' → d'.hideLast? = some d'' → Evolves d d''
  | reveal {d' d'' : Dictionary} : Evolves d d' → d'.revealLast? = some d'' → Evolves d d''

theorem Evolves.trans {d d' d'' : Dictionary} (h : d.Evolves d') (h' : d'.Evolves d'') :
    d.Evolves d'' := by
  induction h' with
  | refl => exact h
  | add entry _ ih => exact .add entry ih
  | name _ hname ih => exact .name ih hname
  | hide _ hhide ih => exact .hide ih hhide
  | reveal _ hreveal ih => exact .reveal ih hreveal

/-- Every word of `d` is at the same index of `d'`. -/
def Grows (d d' : Dictionary) : Prop :=
  ∀ index word, d.get? index = some word → ∃ word', d'.get? index = some word' ∧ word.Becomes word'

theorem Grows.refl (d : Dictionary) : d.Grows d := by
  intro index word hword
  exact ⟨word, hword, .refl word⟩

theorem Grows.trans {d d' d'' : Dictionary} (h : d.Grows d') (h' : d'.Grows d'') :
    d.Grows d'' := by
  intro index word hword
  obtain ⟨word', hword', hbecomes⟩ := h index word hword
  obtain ⟨word'', hword'', hbecomes'⟩ := h' index word' hword'
  exact ⟨word'', hword'', hbecomes.trans hbecomes'⟩

theorem grows_add (d : Dictionary) (word : Word) : d.Grows (d.add word) := by
  intro index old hold
  refine ⟨old, ?_, .refl old⟩
  have hne : index ≠ d.size := Nat.ne_of_lt (lt_size_of_get? hold)
  rw [get?_add, if_neg hne, hold]

theorem grows_changeLast? {d d' : Dictionary} {f : Word → Option Word}
    (hf : ∀ w w', f w = some w' → w.Becomes w') (h : d.changeLast? f = some d') : d.Grows d' := by
  intro index word hword
  rcases get?_of_changeLast? h index with hsame | ⟨last, changed, -, -, hlast, hchanged, hget⟩
  · exact ⟨word, hsame.trans hword, .refl word⟩
  · rw [hlast] at hword
    cases hword
    exact ⟨changed, hget, hf _ _ hchanged⟩

theorem becomes_of_name {name : String} {w w' : Word}
    (h : (if w.name.isEmpty then some { w with name } else none) = some w') : w.Becomes w' := by
  split at h
  · next hempty =>
    cases h
    refine ⟨rfl, rfl, ?_⟩
    intro hname
    exact absurd (String.isEmpty_iff.mp hempty) hname
  · cases h

theorem grows_nameLast? {d d' : Dictionary} {name : String} (h : d.nameLast? name = some d') :
    d.Grows d' := by
  apply grows_changeLast? _ h
  intro w w' hw
  exact becomes_of_name hw

theorem grows_hideLast? {d d' : Dictionary} (h : d.hideLast? = some d') : d.Grows d' := by
  apply grows_changeLast? _ h
  rintro w _ ⟨⟩
  exact w.becomes_setHidden _

theorem grows_revealLast? {d d' : Dictionary} (h : d.revealLast? = some d') : d.Grows d' := by
  apply grows_changeLast? _ h
  rintro w _ ⟨⟩
  exact w.becomes_setHidden _

theorem Evolves.grows {d d' : Dictionary} (h : d.Evolves d') : d.Grows d' := by
  induction h with
  | refl => exact .refl d
  | add entry _ ih => exact ih.trans (grows_add _ _)
  | name _ hname ih => exact ih.trans (grows_nameLast? hname)
  | hide _ hhide ih => exact ih.trans (grows_hideLast? hhide)
  | reveal _ hreveal ih => exact ih.trans (grows_revealLast? hreveal)

/-- Every word of `d` behaves like the word at the same index of `d'`. -/
def Carries (d d' : Dictionary) : Prop :=
  ∀ index word, d.get? index = some word →
    ∃ word', d'.get? index = some word' ∧ word'.behavior = word.behavior

theorem Carries.refl (d : Dictionary) : d.Carries d := by
  intro index word hword
  exact ⟨word, hword, rfl⟩

theorem Grows.carries {d d' : Dictionary} (h : d.Grows d') : d.Carries d' := by
  intro index word hword
  obtain ⟨word', hword', hbecomes⟩ := h index word hword
  exact ⟨word', hword', hbecomes.behavior⟩

/-- A cell means the same in a dictionary that carries the other one. -/
theorem Carries.resolve? {d d' : Dictionary} (h : d.Carries d') {cell : Cell} {behavior : Behavior}
    (hcell : (d.resolve? cell).map Word.behavior = some behavior) :
    (d'.resolve? cell).map Word.behavior = some behavior := by
  obtain ⟨word, hword, rfl⟩ := Option.map_eq_some_iff.mp hcell
  obtain ⟨index, hindex, hget⟩ := Option.bind_eq_some_iff.mp hword
  obtain ⟨word', hget', hbehavior⟩ := h index word hget
  rw [Dictionary.resolve?, hindex, Option.bind_some, hget', Option.map_some, hbehavior]

theorem Grows.size_le {d d' : Dictionary} (h : d.Grows d') : d.size ≤ d'.size := by
  rcases hsize : d.size with _ | count
  · exact Nat.zero_le _
  · -- The newest word of `d` is in `d'` too.
    have hlast : d.get? count ≠ none := by
      rw [Ne, get?_eq_none_iff]
      omega
    obtain ⟨word, hword⟩ := Option.ne_none_iff_exists'.mp hlast
    obtain ⟨word', hword', -⟩ := h count word hword
    exact lt_size_of_get? hword'

theorem Evolves.get?_changeLast? {d d' d'' : Dictionary} (h : d.Evolves d')
    {f : Word → Option Word} (hf : d'.changeLast? f = some d'') {index : Nat}
    (hlt : index + 1 < d.size) : d''.get? index = d'.get? index := by
  rcases get?_of_changeLast? hf index with hsame | ⟨_, _, hsize, -⟩
  · exact hsame
  · have hle := h.grows.size_le
    omega

/-- All words but the newest one stay as they are. -/
theorem Evolves.get?_of_lt {d d' : Dictionary} (h : d.Evolves d') {index : Nat}
    (hlt : index + 1 < d.size) : d'.get? index = d.get? index := by
  induction h with
  | refl => rfl
  | add entry h ih =>
    have hle := h.grows.size_le
    rw [get?_add, if_neg (by omega), ih]
  | name h hname ih => rw [h.get?_changeLast? hname hlt, ih]
  | hide h hhide ih => rw [h.get?_changeLast? hhide hlt, ih]
  | reveal h hreveal ih => rw [h.get?_changeLast? hreveal hlt, ih]

/-- The initial words are in place, and all others are compiled and not immediate. -/
structure Standard (d : Dictionary) : Prop where
  vocabulary : Vocabulary.dictionary.Grows d
  defined : ∀ index word, Vocabulary.words.length ≤ index → d.get? index = some word →
    word.immediate = false ∧ ∃ entry, word.behavior = .compiled entry

theorem standard_vocabulary : Vocabulary.dictionary.Standard := by
  refine ⟨.refl _, ?_⟩
  intro index word hle hword
  have hlt : index < Vocabulary.words.length := by
    rw [← Vocabulary.words_dictionary, length_words]
    exact lt_size_of_get? hword
  exact absurd hle (Nat.not_le_of_lt hlt)

theorem Standard.add {d : Dictionary} (h : d.Standard) {word : Word} (himm : word.immediate = false)
    (hentry : ∃ entry, word.behavior = .compiled entry) : (d.add word).Standard := by
  refine ⟨h.vocabulary.trans (grows_add d word), ?_⟩
  intro index other hle hother
  rw [get?_add] at hother
  split at hother
  · cases hother
    exact ⟨himm, hentry⟩
  · exact h.defined index other hle hother

theorem Standard.changeLast? {d d' : Dictionary} (h : d.Standard) {f : Word → Option Word}
    (hf : ∀ w w', f w = some w' → w.Becomes w') (hd : d.changeLast? f = some d') :
    d'.Standard := by
  refine ⟨h.vocabulary.trans (grows_changeLast? hf hd), ?_⟩
  intro index word hle hword
  rcases get?_of_changeLast? hd index with hsame | ⟨last, changed, -, -, hlast, hchanged, hget⟩
  · exact h.defined index word hle (hsame ▸ hword)
  · rw [hget] at hword
    cases hword
    have hbecomes := hf _ _ hchanged
    rw [hbecomes.immediate, hbecomes.behavior]
    exact h.defined index last hle hlast

theorem Standard.evolves {d d' : Dictionary} (h : d.Standard) (hd : d.Evolves d') :
    d'.Standard := by
  induction hd with
  | refl => exact h
  | add entry _ ih => exact ih.add rfl ⟨entry, rfl⟩
  | name _ hname ih => exact ih.changeLast? (fun _ _ => becomes_of_name) hname
  | hide _ hhide ih =>
    refine ih.changeLast? ?_ hhide
    rintro w _ ⟨⟩
    exact w.becomes_setHidden _
  | reveal _ hreveal ih =>
    refine ih.changeLast? ?_ hreveal
    rintro w _ ⟨⟩
    exact w.becomes_setHidden _

/-- A primitive is one of the initial words. -/
theorem Standard.mem_vocabulary {d : Dictionary} (h : d.Standard) {index : Nat} {word : Word}
    {p : Primitive} (hword : d.get? index = some word) (hp : word.behavior = .primitive p) :
    ∃ old ∈ Vocabulary.words, old.behavior = .primitive p ∧ old.immediate = word.immediate := by
  rcases Nat.lt_or_ge index Vocabulary.words.length with hlt | hge
  · have hold : Vocabulary.dictionary.get? index = some Vocabulary.words[index] := by
      rw [← getElem?_words, Vocabulary.words_dictionary, List.getElem?_eq_getElem hlt]
    obtain ⟨word', hword', hbecomes⟩ := h.vocabulary index _ hold
    rw [hword] at hword'
    cases hword'
    exact ⟨_, List.getElem_mem hlt, hbecomes.behavior ▸ hp, hbecomes.immediate.symm⟩
  · obtain ⟨-, entry, hentry⟩ := h.defined index word hge hword
    rw [hentry] at hp
    cases hp

/-- Words that work on definitions act at once, also in compile mode, except for `reveal`. -/
theorem Standard.immediate_of_defines {d : Dictionary} (hd : d.Standard) {index : Nat} {word : Word}
    {p : Primitive} (hword : d.get? index = some word) (hp : word.behavior = .primitive p)
    (hdefines : p.defines = true) (hreveal : p ≠ .reveal) : word.immediate = true := by
  obtain ⟨old, hold, hbehavior, himmediate⟩ := hd.mem_vocabulary hword hp
  have hall : ∀ w ∈ Vocabulary.words, ∀ q, w.behavior = .primitive q → q.defines = true →
      q ≠ .reveal → w.immediate = true := by
    simp [Vocabulary.words, Primitive.defines]
  rw [← himmediate]
  exact hall old hold p hbehavior hdefines hreveal

/-- The other primitives do not, except for `[`. -/
theorem Standard.not_immediate_of_computes {d : Dictionary} (hd : d.Standard) {index : Nat} {word : Word}
    {p : Primitive} (hword : d.get? index = some word) (hp : word.behavior = .primitive p)
    (hcomputes : p.defines = false) (hleft : p ≠ .leftBracket) : word.immediate = false := by
  obtain ⟨old, hold, hbehavior, himmediate⟩ := hd.mem_vocabulary hword hp
  have hall : ∀ w ∈ Vocabulary.words, ∀ q, w.behavior = .primitive q → q.defines = false →
      q ≠ .leftBracket → w.immediate = false := by
    simp [Vocabulary.words, Primitive.defines]
  rw [← himmediate]
  exact hall old hold p hbehavior hcomputes hleft

end Dictionary

/-! ## Everything a session does -/

open Dictionary (Evolves)

theorem evolves_getD {d : Dictionary} {d' : Option Dictionary}
    (h : ∀ d'', d' = some d'' → d.Evolves d'') : d.Evolves (d'.getD d) := by
  rcases d' with _ | d''
  · exact .refl
  · exact h d'' rfl

namespace Session

theorem evolves_nameDefinition (s : Session) (name : String) :
    s.dictionary.Evolves (s.nameDefinition name).dictionary :=
  evolves_getD fun _ h => .name .refl h

theorem evolves_hideLast (s : Session) : s.dictionary.Evolves s.hideLast.dictionary :=
  evolves_getD fun _ h => .hide .refl h

theorem evolves_revealLast (s : Session) : s.dictionary.Evolves s.revealLast.dictionary :=
  evolves_getD fun _ h => .reveal .refl h

theorem evolves_closeDefinition (s : Session) : s.dictionary.Evolves s.closeDefinition.dictionary :=
  evolves_revealLast (s.compileWord Vocabulary.exitIndex)

theorem evolves_openDefinition (s : Session) : s.dictionary.Evolves s.openDefinition.dictionary :=
  .add s.cursor .refl

end Session

theorem Primitive.evolves_perform (s : Session) (p : Primitive) :
    s.dictionary.Evolves (Outcome.session (p.perform s)).dictionary := by
  generalize h : Outcome.session (p.perform s) = t
  cases leaves_of_perform h with
  | nothing | computes => exact .refl
  | hide => exact s.evolves_hideLast
  | reveal => exact s.evolves_revealLast
  | colon => exact s.evolves_openDefinition
  | semicolon => exact s.evolves_closeDefinition

namespace Frame

theorem evolves_perform (s : Session) (p : Primitive) :
    s.dictionary.Evolves (perform s p).session.dictionary := by
  obtain ⟨stack, cursor, hsession⟩ := session_perform s p
  rw [hsession]
  exact Primitive.evolves_perform s p

theorem evolves_step (s : Session) : s.dictionary.Evolves (step s).session.dictionary := by
  apply step_session (P := fun t => s.dictionary.Evolves t.dictionary) .refl .refl
  intro p _
  exact evolves_perform s.skipCell p

theorem Ends.evolves {s t : Session} {ending : Ending} (h : Ends s ending t) :
    s.dictionary.Evolves t.dictionary := by
  apply h.invariant (P := fun t => s.dictionary.Evolves t.dictionary) _ _ .refl
  · intro t cursor hst
    exact hst
  · intro t hst
    exact hst.trans (evolves_step t)

end Frame

/-- A call that is running has only let its dictionary evolve. -/
theorem Call.Turns.evolves {n : Nat} {c d : Call} (h : Call.Turns n c d) :
    c.session.dictionary.Evolves d.session.dictionary := by
  refine h.invariant (I := fun d => c.session.dictionary.Evolves d.session.dictionary) ?_ .refl
  intro d hd hcd
  obtain ⟨cursor, returns, hturn⟩ := d.session_turn hd
  rw [hturn]
  exact hcd.trans (Frame.evolves_step d.session)

namespace Session

theorem session_endingOutcome (ending : Ending) (s : Session) :
    Outcome.session (ending.outcome s) = s := by
  rcases ending with ⟨_ | _⟩ | _ <;> rfl

theorem evolves_run? {fuel entry : Nat} {s : Session} {o : Outcome Unit} (hs : s.returns = [])
    (h : s.run? fuel entry = some o) : s.dictionary.Evolves (Outcome.session o).dictionary := by
  obtain ⟨ending, t, hends, rfl⟩ := (run?_iff_ends hs).mp ⟨fuel, h⟩
  rw [session_endingOutcome]
  exact hends.evolves

theorem evolves_performOnTokens {s : Session} (p : Primitive) (hs : s.returns = []) :
    s.dictionary.Evolves (Outcome.session (p.performOnTokens s)).dictionary := by
  obtain ⟨pending, hsession⟩ := session_performOnTokens p hs
  rw [hsession]
  exact Primitive.evolves_perform s p

theorem evolves_interprets {fuel : Nat} {s : Session} {t : Token} {o : Outcome Unit}
    (hs : s.returns = []) (h : s.Interprets fuel t o) :
    s.dictionary.Evolves (Outcome.session o).dictionary := by
  cases h with
  | name => exact s.evolves_nameDefinition t.text
  | perform => exact evolves_performOnTokens _ hs
  | run _ _ _ _ _ hrun => exact evolves_run? hs hrun
  | _ => exact .refl

/-- So has a line that comes to a token. -/
theorem Meets.evolves {s s' : Session} {ts : List Token} {t : Token} (h : Meets s ts s' t)
    (hs : s.returns = []) : s.dictionary.Evolves s'.dictionary := by
  induction h with
  | head => exact .refl
  | @tail s u _ t _ _ _ hfirst _ ih =>
    have hinterprets := interpret?_eq_some_iff.mp hfirst
    have hlocated : ({ s with location := some t.location } : Session).returns = [] := hs
    exact (evolves_interprets hlocated hinterprets).trans
      (ih (returns_of_interprets hlocated hinterprets))

theorem evolves_process? {fuel : Nat} {s t : Session} {line : String} {response : Response}
    (hs : s.returns = []) (h : s.process? fuel line = some (response, t)) :
    s.dictionary.Evolves t.dictionary := by
  let P (u : Session) : Prop := s.dictionary.Evolves u.dictionary
  apply process?_invariant_of_returns (P := P) _ _ _ _ hs .refl h
  · intro u l hsu
    exact hsu
  · intro u token o _ hu hsu hinterprets
    exact hsu.trans (evolves_interprets hu hinterprets)
  · intro u hsu
    exact hsu
  · intro u hsu
    exact hsu

theorem Reachable.evolves {s : Session} (hs : s.Reachable) :
    Vocabulary.dictionary.Evolves s.dictionary := by
  induction hs with
  | initial => exact .refl
  | line hs h ih => exact ih.trans (evolves_process? hs.returns_eq_nil h)

theorem Reachable.standard {s : Session} (hs : s.Reachable) : s.dictionary.Standard :=
  Dictionary.standard_vocabulary.evolves hs.evolves

end Session

end MiniForth
