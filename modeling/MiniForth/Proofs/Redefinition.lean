import MiniForth.Proofs.Mirror

/-!
# Redefinition

Compiled code refers to words by index and to code by address. What is defined later gets indices and
addresses of its own, and it may take names away from words, but names are nothing that running code
looks at. So a call does not see it.

* `Ending.Mirrors.eq`: frames that mirror each other at one location end with the same failure.
* `Mirrors.same_answer`: a call answers the same in every session that has what its code can meet.
-/

namespace MiniForth

/-- Is the primitive about words? It lists them, or it works on definitions. -/
def Primitive.concernsWords : Primitive → Bool
  | words => true
  | p     => p.defines

theorem Primitive.defines_of_concernsWords {p : Primitive} (h : p.concernsWords = false) :
    p.defines = false ∧ p ≠ .words := by
  have hwords : p ≠ .words := by
    rintro rfl
    cases h
  refine ⟨?_, hwords⟩
  cases p
  case words => exact absurd rfl hwords
  all_goals exact h

theorem Ending.Mirrors.eq {l : Option Location} {ending ending' : Ending}
    (h : ending.Mirrors l l ending') : ending' = ending := by
  cases h <;> rfl

theorem Ending.failure?_outcome (ending : Ending) (s t : Session) :
    (ending.outcome s).failure? = (ending.outcome t).failure? := by
  rcases ending with ⟨_ | f⟩ | f <;> rfl

namespace Session

variable {s t : Session}

/-- A call whose code works on no definition, lists no words and meets no memory fault answers the same
in every session that mirrors the one it is made in, whatever else has been defined there and whatever
the words are called. It leaves sessions of which again the second mirrors the first, and in the second
nothing that is compiled has changed. -/
theorem Mirrors.same_answer (h : s.Mirrors t) (hs : s.returns = []) (ht : t.returns = [])
    (hlocation : t.location = s.location) {fuel entry : Nat} {o : Outcome Unit}
    (hrun : s.run? fuel entry = some o)
    (hall : (Call.start s entry).Always (Dispatches fun p => p.concernsWords = false)) :
    ∃ fuel' o', t.run? fuel' entry = some o' ∧ o'.failure? = o.failure? ∧
      (Outcome.session o).Mirrors (Outcome.session o') ∧ t.SameProgram (Outcome.session o') := by
  obtain ⟨ending, u, hends, rfl⟩ := (run?_iff_ends hs).mp ⟨fuel, hrun⟩
  rw [start_eq hs] at hall
  obtain ⟨ending', v, hends', huv, hsame, hending⟩ :=
    hends.mirrors (fun _ => Primitive.defines_of_concernsWords) hall (t := { t with cursor := entry })
      (h.withCursor entry entry) rfl rfl hlocation
  have heq : ending' = ending := hending.eq
  subst heq
  obtain ⟨fuel', hrun'⟩ := (run?_iff_ends ht).mpr ⟨ending', v, hends', rfl⟩
  refine ⟨fuel', _, hrun', ending'.failure?_outcome _ _, ?_, ?_⟩
  · rw [session_endingOutcome, session_endingOutcome]
    exact huv.withCursor s.cursor t.cursor
  · rw [session_endingOutcome]
    exact ⟨hsame.code, hsame.dictionary, hsame.phase⟩

/-! ## A word whose callees were redefined -/

/-- A session after `: one 1 ; : two one one + . + ;`. -/
def original : Session :=
  { Session.initial with
    code       := ⟨#[2, 1, 0, 17, 17, 10, 12, 10, 0]⟩
    cursor     := 9
    dictionary := (Vocabulary.dictionary.add { name := "one", behavior := .compiled 0 }).add
      { name := "two", behavior := .compiled 3 }
    lines      := 1 }

/-- The same session after `: one 5 ; : + 7 ; : two ; hide`. -/
def redefined : Session :=
  { original with
    code       := ⟨#[2, 1, 0, 17, 17, 10, 12, 10, 0, 2, 5, 0, 2, 7, 0, 0]⟩
    cursor     := 16
    dictionary := ((original.dictionary.add { name := "one", behavior := .compiled 9 }).add
      { name := "+", behavior := .compiled 12 }).add
        { name := "two", behavior := .compiled 15, hidden := true }
    lines      := 2 }

/-- The word prints 2 and then underflows, as it did before. -/
theorem redefined_same_answer : redefined.Reachable ∧ ∃ fuel o, redefined.run? fuel 3 = some o ∧
    o.failure? = some (.ofCause none (.tooFewCells 2 0)) ∧ (Outcome.session o).output = "2" := by
  have hfirst : process? 0 .initial ": one 1 ; : two one one + . + ;" = some ({}, original) := by
    decide +kernel
  have hsecond : process? 0 original ": one 5 ; : + 7 ; : two ; hide" = some ({}, redefined) := by
    decide +kernel
  have hreachable : redefined.Reachable := .line (.line .initial hfirst) hsecond
  have hgrows : original.dictionary.Grows redefined.dictionary :=
    ((Dictionary.grows_add _ _).trans (Dictionary.grows_add _ _)).trans (Dictionary.grows_add _ _)
  have hmirrors : original.Mirrors redefined :=
    ⟨by decide, hgrows.carries, rfl, rfl, rfl, rfl, rfl⟩
  have hchecks : (Call.start original 3).checks (Dispatches fun p => p.concernsWords = false) 20 =
      true := by decide +kernel
  have hbefore : original.run? 20 3 =
      some (.error (.ofCause none (.tooFewCells 2 0)) { original with output := "2" }) := rfl
  obtain ⟨fuel, o, hrun, hfailure, hafter, -⟩ :=
    hmirrors.same_answer rfl rfl rfl hbefore (Call.always_of_checks hchecks)
  exact ⟨hreachable, fuel, o, hrun, hfailure, hafter.output⟩

end Session

end MiniForth
