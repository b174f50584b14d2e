import MiniForth.Proofs.Nesting

/-!
# Mode and phase

The mode says whether words are compiled, the phase how far a definition has got. `:` and `;` change
both, `[` and `]` the mode alone. Words are compiled exactly while a definition is open, unless a bracket
has turned the mode to what the phase does not call for.

Whether `;` is reported depends on the mode. It goes by the phase as long as the two are in step, and
behind a `[` it is reported although it ends a definition.

* `Session.InStep`: the mode and the phase agree.
* `Reachable.semicolon_reported`: where `;` is reported and where it is not.
* `not_semicolon_by_phase`: where the phase does not tell.
-/

namespace MiniForth

/-- Only brackets turn the mode. -/
theorem Primitive.mode_of_effect? {p : Primitive} {d : Dictionary} {stack : Stack Cell} {e : Effect}
    (hleft : p ≠ .leftBracket) (hright : p ≠ .rightBracket) (h : p.effect? d stack = some e) :
    e.mode = none := by
  cases p
  case leftBracket => exact absurd rfl hleft
  case rightBracket => exact absurd rfl hright
  case hide | reveal | colon | semicolon => cases h
  case exit | literal | branch | printStack | words => cases h; rfl
  case zeroBranch | print | add | dup | background =>
    obtain ⟨taken, _, rfl⟩ := Option.map_eq_some_iff.mp h
    rfl

namespace Session

/-- Words are compiled exactly if a definition is open. -/
def InStep (s : Session) : Prop := s.mode = .compile ↔ s.phase ≠ .idle

/-- The primitive is no bracket, or one that turns the mode to what the phase calls for. -/
def KeepsStep (s : Session) (p : Primitive) : Prop :=
  (p = .leftBracket → s.phase = .idle) ∧ (p = .rightBracket → s.phase ≠ .idle)

instance (s : Session) (p : Primitive) : Decidable (s.KeepsStep p) :=
  inferInstanceAs (Decidable (_ ∧ _))

variable {s t : Session}

theorem InStep.congr (hs : s.InStep) (hmode : t.mode = s.mode) (hphase : t.phase = s.phase) :
    t.InStep := by
  rw [InStep, hmode, hphase]
  exact hs

theorem inStep_openDefinition (s : Session) : s.openDefinition.InStep :=
  iff_of_true rfl Phase.noConfusion

theorem inStep_closeDefinition (s : Session) : s.closeDefinition.InStep :=
  iff_of_false Mode.noConfusion fun h => h rfl

theorem InStep.perform (hs : s.InStep) {p : Primitive} (hp : s.KeepsStep p) :
    (Outcome.session (p.perform s)).InStep := by
  generalize h : Outcome.session (p.perform s) = t
  cases Primitive.leaves_of_perform h with
  | @computes _ e _ he =>
    by_cases hleft : p = .leftBracket
    · subst hleft
      cases he
      exact iff_of_false Mode.noConfusion fun hopen => hopen (hp.1 rfl)
    by_cases hright : p = .rightBracket
    · subst hright
      cases he
      exact iff_of_true rfl (hp.2 rfl)
    refine hs.congr ?_ rfl
    show e.mode.getD s.mode = s.mode
    rw [Primitive.mode_of_effect? hleft hright he, Option.getD_none]
  | nothing | hide | reveal => exact hs.congr rfl rfl
  | colon => exact s.inStep_openDefinition
  | semicolon => exact s.inStep_closeDefinition

theorem kept_inStep : Kept KeepsStep InStep where
  congr hs _ hmode hphase := hs.congr hmode hphase
  perform s cursor p hp hs := by
    have hinStep : InStep { s with cursor } := hs.congr rfl rfl
    exact hinStep.perform hp
  name s name _ hphase hs := by
    have hopen : s.phase ≠ .idle := by
      rw [hphase]
      simp
    exact iff_of_true (hs.mpr hopen) Phase.noConfusion

theorem Confined.inStep (hs : s.Confined KeepsStep) : s.InStep :=
  hs.invariant kept_inStep (iff_of_false Mode.noConfusion fun h => h rfl)

/-- In immediate mode `;` is reported, after it has done its work. In compile mode it is not, if there is
a definition to end. Where brackets have only turned the mode to what the phase calls for, it is reported
exactly if there is none. -/
theorem Reachable.semicolon_reported (hs : s.Reachable) (hphase : s.phase ≠ .awaitingName)
    {token : Token} (hsemicolon : s.dictionary.Names token.text .semicolon) (fuel : Nat) :
    (s.mode = .immediate → s.interpret? fuel token =
      some (.error (.ofCause s.location .unexpectedSemicolon) s.closeDefinition)) ∧
    (s.mode = .compile → s.phase = .compiling →
      s.interpret? fuel token = some (.ok () s.closeDefinition)) ∧
    (s.Confined KeepsStep → s.interpret? fuel token =
      some (if s.phase = .idle then
        .error (.ofCause s.location .unexpectedSemicolon) s.closeDefinition
      else .ok () s.closeDefinition)) := by
  have hperformed := interpret?_of_defines hs.standard hphase hs.pending_eq_nothing rfl (by decide)
    hsemicolon fuel
  rw [hperformed, performOnTokens_semicolon hs.returns_eq_nil]
  refine ⟨?_, ?_, ?_⟩
  · intro hmode
    rw [if_pos hmode]
  · intro hmode _
    rw [if_neg]
    simp [hmode]
  · intro hconfined
    have hinStep := hconfined.inStep
    by_cases hidle : s.phase = .idle
    · have hmode : s.mode = .immediate := by
        cases hmode : s.mode with
        | immediate => rfl
        | compile => exact absurd hidle (hinStep.mp hmode)
      rw [if_pos hidle, if_pos hmode]
    · have hmode : s.mode = .compile := hinStep.mpr hidle
      rw [if_neg hidle, if_neg]
      simp [hmode]

/-! ## Behind a bracket -/

/-- The token `;` at the start of a second line. -/
def lateSemicolon : Token := { text := ";", location := { path := source, line := 2, column := 1 } }

/-- Behind `: a 1` the definition ends without a report, behind `: a [` with one. -/
theorem suspended_semicolon_reported :
    (unfinished.Confined KeepsStep ∧
      unfinished.interpret? 0 lateSemicolon = some (.ok () unfinished.closeDefinition)) ∧
    (suspended.Reachable ∧ suspended.interpret? 0 lateSemicolon =
      some (.error (.ofCause none .unexpectedSemicolon) suspended.closeDefinition)) := by
  have hunfinished : process? 0 .initial ": a 1" = some ({}, unfinished) := by decide +kernel
  have hsuspended : process? 0 .initial ": a [" = some ({}, suspended) := by decide +kernel
  have hline : initial.LinePerformsOnly KeepsStep ": a 1" :=
    linePerformsOnly_of_checks (by rw [hunfinished]; rfl) (by decide +kernel)
  have hconfined : unfinished.Confined KeepsStep := .line .initial hline hunfinished
  have hreachable : suspended.Reachable := .line .initial hsuspended
  have hends : unfinished.dictionary.Names lateSemicolon.text .semicolon := by decide +kernel
  have hends' : suspended.dictionary.Names lateSemicolon.text .semicolon := by decide +kernel
  obtain ⟨-, -, hbyPhase⟩ := hconfined.reachable.semicolon_reported (by decide) hends 0
  obtain ⟨hbyMode, -, -⟩ := hreachable.semicolon_reported (by decide) hends' 0
  exact ⟨⟨hconfined, hbyPhase hconfined⟩, hreachable, hbyMode rfl⟩

/-- The phase does not tell whether `;` is reported. -/
theorem not_semicolon_by_phase :
    ¬ ∀ (s : Session) (token : Token) (fuel : Nat), s.Reachable → s.phase ≠ .awaitingName →
      s.dictionary.Names token.text .semicolon → ∃ o, s.interpret? fuel token = some o ∧
        (s.phase = .idle → ∃ t, o = .error (.ofCause s.location .unexpectedSemicolon) t) ∧
        (s.phase = .compiling → ∃ t, o = .ok () t) := by
  intro hbyPhase
  have hprocess : process? 0 .initial ": a [" = some ({}, suspended) := by decide +kernel
  have hreachable : suspended.Reachable := .line .initial hprocess
  have hends : suspended.dictionary.Names lateSemicolon.text .semicolon := by decide +kernel
  obtain ⟨o, ho, -, hsucceeds⟩ := hbyPhase suspended lateSemicolon 0 hreachable (by decide) hends
  obtain ⟨t, rfl⟩ := hsucceeds rfl
  have hreported : suspended.interpret? 0 lateSemicolon =
      some (.error (.ofCause none .unexpectedSemicolon) suspended.closeDefinition) := by
    rw [interpret?_of_defines hreachable.standard (by decide) rfl rfl (by decide) hends,
      performOnTokens_semicolon rfl]
    rfl
  rw [hreported] at ho
  cases ho

end Session

end MiniForth
