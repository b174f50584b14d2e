import MiniForth.Proofs.Gapless
import MiniForth.Proofs.Unnamed

/-!
# Words and their indices

A cell of code refers to a word by its index, and it does so for ever. So the word at an index has to
stay the word it is, whatever is added, named, hidden and revealed later on, by words of a line or by
code that they run, and also where a line fails.

* `Arises.evolves`: all that becomes of the dictionary is what `Dictionary.Evolves` has.
* `Arises.contained`: the code of every word begins in code memory or right behind it.
* `Arises.index_is_identity`: what becomes of the word at an index.
-/

namespace MiniForth

/-! ## Where code begins -/

namespace Dictionary

variable {d d' : Dictionary} {limit : Nat}

/-- No word has code that begins behind the limit. -/
def EntriesWithin (d : Dictionary) (limit : Nat) : Prop :=
  ∀ index word entry, d.get? index = some word → word.behavior = .compiled entry → entry ≤ limit

theorem entriesWithin_vocabulary (limit : Nat) : Vocabulary.dictionary.EntriesWithin limit := by
  intro index word entry hword hentry
  have hmem : word ∈ Vocabulary.words := by
    rw [← getElem?_words, Vocabulary.words_dictionary] at hword
    exact List.mem_of_getElem? hword
  have hall : ∀ w ∈ Vocabulary.words, ∀ entry, w.behavior ≠ .compiled entry := by
    simp [Vocabulary.words]
  exact absurd hentry (hall word hmem entry)

theorem EntriesWithin.mono (h : d.EntriesWithin limit) {limit' : Nat} (hle : limit ≤ limit') :
    d.EntriesWithin limit' := by
  intro index word entry hword hentry
  exact Nat.le_trans (h index word entry hword hentry) hle

theorem EntriesWithin.add (h : d.EntriesWithin limit) {word : Word} {entry : Nat}
    (hbehavior : word.behavior = .compiled entry) (hle : entry ≤ limit) :
    (d.add word).EntriesWithin limit := by
  intro index other entry' hother hentry'
  rw [get?_add] at hother
  split at hother
  · cases hother
    rw [hbehavior] at hentry'
    cases hentry'
    exact hle
  · exact h index other entry' hother hentry'

theorem EntriesWithin.changeLast? (h : d.EntriesWithin limit) {f : Word → Option Word}
    (hf : ∀ w w', f w = some w' → w.Becomes w') :
    ((d.changeLast? f).getD d).EntriesWithin limit := by
  intro index word entry hword hentry
  obtain ⟨old, hold, rfl | hchanged⟩ := exists_of_get?_changeLast? hword
  · exact h index word entry hold hentry
  · exact h index old entry hold ((hf old word hchanged).behavior.symm.trans hentry)

end Dictionary

namespace Session

variable {s : Session} {limit : Nat}

theorem entriesWithin_nameDefinition (h : s.dictionary.EntriesWithin limit) (name : String) :
    (s.nameDefinition name).dictionary.EntriesWithin limit :=
  h.changeLast? fun _ _ => Dictionary.becomes_of_name

theorem entriesWithin_hideLast (h : s.dictionary.EntriesWithin limit) :
    s.hideLast.dictionary.EntriesWithin limit := by
  refine h.changeLast? ?_
  rintro w _ ⟨⟩
  exact w.becomes_setHidden _

theorem entriesWithin_revealLast (h : s.dictionary.EntriesWithin limit) :
    s.revealLast.dictionary.EntriesWithin limit := by
  refine h.changeLast? ?_
  rintro w _ ⟨⟩
  exact w.becomes_setHidden _

theorem entriesWithin_perform (h : s.dictionary.EntriesWithin limit) (hcursor : s.cursor ≤ limit)
    (p : Primitive) : (Outcome.session (p.perform s)).dictionary.EntriesWithin limit := by
  generalize hleft : Outcome.session (p.perform s) = t
  cases Primitive.leaves_of_perform hleft with
  | nothing | computes => exact h
  | hide => exact entriesWithin_hideLast h
  | reveal => exact entriesWithin_revealLast h
  | colon => exact h.add rfl hcursor
  | semicolon =>
    exact entriesWithin_revealLast (s := s.compileWord Vocabulary.exitIndex) h

/-- The `:` that a step carries out is a cell of code memory, so the cursor behind it does not lie outside. -/
theorem entriesWithin_step (h : s.dictionary.EntriesWithin s.code.size) :
    (Frame.step s).session.dictionary.EntriesWithin s.code.size := by
  apply Frame.step_session (P := fun t => t.dictionary.EntriesWithin s.code.size) h h
  intro p hp
  obtain ⟨cell, hcell, -⟩ := Option.bind_eq_some_iff.mp hp
  obtain ⟨stack, cursor, hsession⟩ := Frame.session_perform s.skipCell p
  rw [hsession]
  exact entriesWithin_perform (s := s.skipCell) h (Stack.lt_size_of_get? hcell) p

theorem entriesWithin_interprets {fuel : Nat} {t : Token} {o : Outcome Unit} (hreturns : s.returns = [])
    (hcalled : s.called? t = none) (hcursor : s.cursor ≤ limit)
    (h : s.dictionary.EntriesWithin limit) (hinterprets : s.Interprets fuel t o) :
    (Outcome.session o).dictionary.EntriesWithin limit := by
  cases hinterprets with
  | name => exact entriesWithin_nameDefinition h t.text
  | perform =>
    obtain ⟨pending, hsession⟩ := session_performOnTokens _ hreturns
    rw [hsession]
    exact entriesWithin_perform h hcursor _
  | run hphase hpending hfind hruns hbehavior =>
    rw [called?_eq hphase hpending hfind hruns hbehavior] at hcalled
    cases hcalled
  | _ => exact h

end Session

/-- Primitives and names let a dictionary evolve. -/
theorem Session.kept_evolves (d : Dictionary) :
    Session.Kept (fun _ _ => True) fun s => d.Evolves s.dictionary where
  congr h hdictionary _ _ := by rwa [hdictionary]
  perform s cursor p _ h := h.trans (Primitive.evolves_perform { s with cursor } p)
  name s name _ _ h := h.trans (s.evolves_nameDefinition name)

/-! ## Every moment -/

namespace Moment

variable {m m' : Moment}

theorem dictionary_after (ahead : List Token) (o : Outcome Unit) :
    (after ahead o).session.dictionary = (Outcome.session o).dictionary := by
  cases o <;> rfl

theorem Arises.evolves (hm : m.Arises) (h : m.Leads m') :
    m.session.dictionary.Evolves m'.session.dictionary :=
  h.kept (Session.kept_evolves m.session.dictionary) hm .refl

theorem Arises.standard (hm : m.Arises) : m.session.dictionary.Standard :=
  Dictionary.standard_vocabulary.evolves (Arises.evolves .refl hm)

theorem Next.contained (hm : m.Arises) (h : m.Next m')
    (hwithin : m.session.dictionary.EntriesWithin m.session.code.size) :
    m'.session.dictionary.EntriesWithin m.session.code.size := by
  cases h with
  | line | finish | call => exact hwithin
  | @word s t ahead fuel o hcalled hinterpret =>
    have hreturns : Session.returns { s with location := some t.location } = [] :=
      hm.returns_eq_nil rfl
    have hcursor : s.cursor ≤ s.code.size := by
      have hhome := hm.home_le
      rwa [hm.home_eq_target rfl] at hhome
    rw [dictionary_after]
    exact Session.entriesWithin_interprets hreturns hcalled hcursor hwithin
      (Session.interpret?_eq_some_iff.mp hinterpret)
  | @turn c ahead hc =>
    obtain ⟨cursor, returns, hturn⟩ := Call.session_turn hc
    show c.turn.session.dictionary.EntriesWithin _
    rw [hturn]
    exact Session.entriesWithin_step hwithin
  | back =>
    rw [dictionary_after, Call.session_outcome]
    exact hwithin

/-- The code of every word begins in code memory or right behind it. -/
theorem Arises.contained (hm : m.Arises) :
    m.session.dictionary.EntriesWithin m.session.code.size := by
  refine hm.invariant (I := fun m => m.session.dictionary.EntriesWithin m.session.code.size)
    (Dictionary.entriesWithin_vocabulary _) ?_
  intro m m' hm hwithin hnext
  exact (hnext.contained hm hwithin).mono (hnext.precedes hm).size

/-- The word at an index stays there for good. Its behavior and whether it is immediate never change, and
neither does its name, but for a word without one, which is named at most once. The indices that the
compiler knows are those of `exit` and `lit`, and behind the initial words there are compiled words only,
none of them immediate and none with code that begins outside code memory. -/
theorem Arises.index_is_identity (hm : m.Arises) :
    (∀ index word m', m.session.dictionary.get? index = some word → m.Leads m' →
      ∃ word', m'.session.dictionary.get? index = some word' ∧
        word'.behavior = word.behavior ∧ word'.immediate = word.immediate ∧
        (word.name ≠ "" → word'.name = word.name) ∧
        ∀ m'', word'.name ≠ word.name → m'.Leads m'' →
          ∃ word'', m''.session.dictionary.get? index = some word'' ∧ word''.name = word'.name) ∧
    (∃ word, m.session.dictionary.get? Vocabulary.exitIndex = some word ∧
      word.behavior = .primitive .exit) ∧
    (∃ word, m.session.dictionary.get? Vocabulary.literalIndex = some word ∧
      word.behavior = .primitive .literal) ∧
    ∀ index word, Vocabulary.words.length ≤ index → m.session.dictionary.get? index = some word →
      word.immediate = false ∧ ∃ entry ≤ m.session.code.size, word.behavior = .compiled entry := by
  have hstandard := hm.standard
  refine ⟨?_, ?_, ?_, ?_⟩
  · intro index word m' hword hleads
    obtain ⟨word', hword', hbecomes⟩ := (hm.evolves hleads).grows index word hword
    refine ⟨word', hword', hbecomes.behavior, hbecomes.immediate, hbecomes.name, ?_⟩
    intro m'' hrenamed hleads'
    obtain ⟨word'', hword'', hbecomes'⟩ := ((hm.leads hleads).evolves hleads').grows index word' hword'
    refine ⟨word'', hword'', hbecomes'.name ?_⟩
    -- A name that has been given is not the empty one, which only a word without a name has.
    intro hempty
    by_cases hname : word.name = ""
    · exact hrenamed (hempty.trans hname.symm)
    · exact hrenamed (hbecomes.name hname)
  · obtain ⟨word, hword, hbecomes⟩ := hstandard.vocabulary _ _ Vocabulary.get?_exitIndex
    exact ⟨word, hword, hbecomes.behavior⟩
  · obtain ⟨word, hword, hbecomes⟩ := hstandard.vocabulary _ _ Vocabulary.get?_literalIndex
    exact ⟨word, hword, hbecomes.behavior⟩
  · intro index word hle hword
    obtain ⟨himmediate, entry, hentry⟩ := hstandard.defined index word hle hword
    exact ⟨himmediate, entry, hm.contained index word entry hword hentry, hentry⟩

theorem waiting_arises : (resting Session.waiting).Arises := by
  let defined : Session := { Session.waiting with
    dictionary := Vocabulary.dictionary.add { name := "a", behavior := .compiled 0 }
    mode := .immediate, phase := .idle, lines := 1 }
  have hdefine : Session.process? 0 .initial ": a branch 7 ;" = some ({}, defined) := by decide +kernel
  have hcall : defined.process? 3 "a" = some ({}, Session.waiting) := by decide +kernel
  exact arises_resting_iff.mpr (.line (.line .initial hdefine) hcall)

/-- In `waiting` the word at index 18 has no name. The line `b` names it, and it is called `b` for good. -/
theorem waiting_index_is_identity : (resting Session.waiting).Arises ∧ ∃ named,
    Session.waiting.process? 0 "b" = some ({}, named) ∧ ∀ m, (resting named).Leads m →
      ∃ word, m.session.dictionary.get? 18 = some word ∧ word.name = "b" := by
  let named : Session := { Session.waiting with
    dictionary := (Vocabulary.dictionary.add { name := "a", behavior := .compiled 0 }).add
      { name := "b", hidden := true, behavior := .compiled 3 }
    phase := .compiling, lines := 3 }
  have hline : Session.waiting.process? 0 "b" = some ({}, named) := by decide +kernel
  have hword : Session.waiting.dictionary.get? 18 =
      some { name := "", hidden := true, behavior := .compiled 3 } := rfl
  have hnamed : named.dictionary.get? 18 =
      some { name := "b", hidden := true, behavior := .compiled 3 } := rfl
  refine ⟨waiting_arises, named, hline, ?_⟩
  intro m hm
  obtain ⟨word', hword', -, -, -, hlater⟩ :=
    waiting_arises.index_is_identity.1 18 _ (resting named) hword (leads_of_process? hline)
  cases hword'.symm.trans hnamed
  exact hlater m (by decide) hm

end Moment

end MiniForth
