import MiniForth.Proofs.Sound

/-!
# Running code elsewhere

The same code means the same in a session that has more code and more words, and whose return
addresses and locations differ, as long as it neither works on definitions nor lists the words nor
meets a memory fault. `Session.Mirrors` relates the two sessions, and both take the same steps.

* `step_mirrors`: one step.
* `Ends.mirrors`: a whole frame.
-/

namespace MiniForth

namespace Session

/-- `t` has all that code run from `s` can meet and change. -/
structure Mirrors (s t : Session) : Prop where
  code       : s.code.toList <+: t.code.toList
  dictionary : s.dictionary.Carries t.dictionary
  stack      : t.stack = s.stack
  output     : t.output = s.output
  background : t.background = s.background
  mode       : t.mode = s.mode
  phase      : t.phase = s.phase

/-- The next dispatch meets no memory fault, and when it carries out a primitive, it is an allowed
one. -/
structure Dispatches (allowed : Primitive → Prop) (s : Session) : Prop where
  primitive : ∀ p, s.upcoming? = some (.primitive p) → allowed p
  faultless : Outcome.Faultless (dispatch s)

instance {α : Type} : DecidablePred (@Outcome.Faultless α)
  | .ok _ _    => isTrue trivial
  | .error f _ => inferInstanceAs (Decidable (f.kind ≠ .memoryFault))

instance (allowed : Primitive → Prop) [DecidablePred allowed] (s : Session) :
    Decidable (s.Dispatches allowed) :=
  decidable_of_iff
    ((∀ p ∈ Primitive.all, s.upcoming? = some (.primitive p) → allowed p) ∧
      Outcome.Faultless (dispatch s)) <| by
    constructor
    · rintro ⟨hall, hfaultless⟩
      refine ⟨fun p hp => hall p ?_ hp, hfaultless⟩
      cases p <;> decide
    · rintro ⟨hall, hfaultless⟩
      exact ⟨fun p _ hp => hall p hp, hfaultless⟩

variable {s t : Session}

theorem Mirrors.withCursor (h : s.Mirrors t) (a b : Nat) :
    Session.Mirrors { s with cursor := a } { t with cursor := b } :=
  ⟨h.code, h.dictionary, h.stack, h.output, h.background, h.mode, h.phase⟩

theorem Mirrors.withStack (h : s.Mirrors t) (stack : Stack Cell) :
    Session.Mirrors { s with stack := stack } { t with stack := stack } :=
  ⟨h.code, h.dictionary, rfl, h.output, h.background, h.mode, h.phase⟩

theorem Mirrors.push (h : s.Mirrors t) (value : Cell) : (s.push value).Mirrors (t.push value) := by
  refine ⟨h.code, h.dictionary, ?_, h.output, h.background, h.mode, h.phase⟩
  show t.stack.push value = s.stack.push value
  rw [h.stack]

/-- What the tokens of a line need is nothing that code needs. -/
theorem Mirrors.inLine (h : s.Mirrors t) (l : Option Location) (pending : Pending) :
    Session.Mirrors { s with location := l, pending := pending } t :=
  ⟨h.code, h.dictionary, h.stack, h.output, h.background, h.mode, h.phase⟩

theorem Mirrors.upcoming? (h : s.Mirrors t) (hcursor : t.cursor = s.cursor) {behavior : Behavior}
    (hup : s.upcoming? = some behavior) : t.upcoming? = some behavior := by
  rw [Session.upcoming?, hcursor]
  exact behaviorAt?_of_isPrefix h.code h.dictionary hup

end Session

/-- Frames that end the same way, for the same cause if they are aborted. -/
inductive Ending.Mirrors (l l' : Option Location) : Ending → Ending → Prop where
  | returned : Mirrors l l' (.returned none) (.returned none)
  | aborted (cause : Cause) :
      Mirrors l l' (.aborted (.ofCause l cause)) (.aborted (.ofCause l' cause))

namespace Frame

/-- Steps to sessions of which the second mirrors the first. -/
inductive Step.Mirrors : Step → Step → Prop where
  | next {s t : Session} : s.Mirrors t → t.cursor = s.cursor → Mirrors (.next s) (.next t)
  | call {s t : Session} {entry : Nat} : s.Mirrors t → t.cursor = s.cursor →
      Mirrors (.call s entry) (.call t entry)
  | stop {s t : Session} {ending ending' : Ending} : s.Mirrors t →
      ending.Mirrors s.location t.location ending' → Mirrors (.stop ending s) (.stop ending' t)

theorem effect?_eq_of_ne_words {p : Primitive} (hp : p ≠ .words) (d d' : Dictionary)
    (stack : Stack Cell) : p.effect? d stack = p.effect? d' stack := by
  cases p
  case words => exact absurd rfl hp
  all_goals rfl

variable {s t : Session}

theorem apply_mirrors (h : s.Mirrors t) (e : Primitive.Effect) : (e.apply s).Mirrors (e.apply t) := by
  have hemit : ∀ text, (t.emit text).output = (s.emit text).output := by
    intro text
    rw [Session.emit, h.output, Session.emit]
  refine ⟨h.code, h.dictionary, rfl, ?_, ?_, ?_, h.phase⟩
  · show (e.text.map fun text => (t.emit text).output).getD t.output =
      (e.text.map fun text => (s.emit text).output).getD s.output
    simp only [hemit, h.output]
  · show (e.colour <|> t.background) = (e.colour <|> s.background)
    rw [h.background]
  · show e.mode.getD t.mode = e.mode.getD s.mode
    rw [h.mode]

theorem perform_mirrors (h : s.Mirrors t) (hcursor : t.cursor = s.cursor) {p : Primitive}
    (hdefines : p.defines = false) (hwords : p ≠ .words)
    (hfault : ∀ f u, perform s p ≠ .stop (.returned (some f)) u) :
    (perform s p).Mirrors (perform t p) := by
  have hskip : s.skipCell.Mirrors t.skipCell := h.withCursor (s.cursor + 1) (t.cursor + 1)
  have hskipCursor : t.skipCell.cursor = s.skipCell.cursor := congrArg (· + 1) hcursor
  by_cases hsteers : p.steers = false
  · rw [perform_of_computes s hdefines hsteers, perform_of_computes t hdefines hsteers, h.stack,
      effect?_eq_of_ne_words hwords t.dictionary s.dictionary]
    rcases p.effect? s.dictionary s.stack with _ | e
    · exact .stop h (.aborted _)
    · exact .next (apply_mirrors h e) hcursor
  · -- The primitives that read code, which is the same as far as that of `s` goes.
    cases p
    case exit => exact .stop h .returned
    case branch => exact .next hskip hskipCursor
    case literal =>
      rw [perform, perform]
      rcases hcell : s.code.get? s.cursor with _ | value
      · exfalso
        refine hfault (.ofCause s.location (.outsideCode s.cursor)) s ?_
        rw [perform, hcell]
      · rw [hcursor, Session.get?_of_isPrefix h.code hcell]
        exact .next (hskip.push value) hskipCursor
    case zeroBranch =>
      rw [perform, perform, h.stack]
      rcases s.stack.pop? with _ | ⟨flag, rest⟩
      · exact .stop h (.aborted _)
      · by_cases hflag : flag = 0
        · simp only [if_pos hflag]
          exact .next (hskip.withStack rest) hskipCursor
        · simp only [if_neg hflag]
          exact .next (h.withStack rest) hcursor
    all_goals exact absurd rfl hsteers

/-- A step that works on no definition, lists no words and meets no memory fault is taken in both
sessions. -/
theorem step_mirrors (h : s.Mirrors t) (hcursor : t.cursor = s.cursor)
    (hallowed : ∀ p, s.upcoming? = some (.primitive p) → p.defines = false ∧ p ≠ .words)
    (hfault : ∀ f u, step s ≠ .stop (.returned (some f)) u) : (step s).Mirrors (step t) := by
  have hskip : s.skipCell.Mirrors t.skipCell := h.withCursor (s.cursor + 1) (t.cursor + 1)
  have hskipCursor : t.skipCell.cursor = s.skipCell.cursor := congrArg (· + 1) hcursor
  rcases hup : s.upcoming? with _ | ⟨p⟩ | ⟨entry⟩
  · obtain ⟨f, u, hstep, -⟩ := step_of_upcoming?_eq_none hup
    exact absurd hstep (hfault f u)
  · obtain ⟨hdefines, hwords⟩ := hallowed p hup
    rw [step_of_primitive hup] at hfault ⊢
    rw [step_of_primitive (h.upcoming? hcursor hup)]
    exact perform_mirrors hskip hskipCursor hdefines hwords hfault
  · rw [step_of_compiled hup, step_of_compiled (h.upcoming? hcursor hup)]
    exact .call hskip hskipCursor

/-! ## What stays as it is -/

/-- What steers acts on the parameter stack and the cursor only. -/
theorem session_perform_of_steers (s : Session) {p : Primitive} (hsteers : p.steers ≠ false) :
    ∃ stack cursor, (perform s p).session = { s with stack := stack, cursor := cursor } := by
  cases p
  case exit | branch => exact ⟨_, _, rfl⟩
  case literal =>
    rw [perform]
    split <;> exact ⟨_, _, rfl⟩
  case zeroBranch =>
    rw [perform]
    split
    · split <;> exact ⟨_, _, rfl⟩
    · exact ⟨_, _, rfl⟩
  all_goals exact absurd rfl hsteers

/-- A primitive that does not work on definitions leaves alone what is compiled. -/
theorem perform_sameProgram (s : Session) {p : Primitive} (hdefines : p.defines = false) :
    s.SameProgram (perform s p).session := by
  by_cases hsteers : p.steers = false
  · rw [perform_of_computes s hdefines hsteers]
    rcases p.effect? s.dictionary s.stack with _ | e
    · exact .refl s
    · exact ⟨rfl, rfl, rfl⟩
  · obtain ⟨stack, cursor, hsession⟩ := session_perform_of_steers s hsteers
    rw [hsession]
    exact ⟨rfl, rfl, rfl⟩

theorem step_sameProgram
    (hallowed : ∀ p, s.upcoming? = some (.primitive p) → p.defines = false) :
    s.SameProgram (step s).session := by
  apply step_session (.refl s) ⟨rfl, rfl, rfl⟩
  intro p hp
  obtain ⟨hcode, hdictionary, hphase⟩ := perform_sameProgram s.skipCell (hallowed p hp)
  exact ⟨hcode, hdictionary, hphase⟩

/-- The mode is turned by `[` and `]` only. -/
theorem perform_mode (s : Session) {p : Primitive} (hdefines : p.defines = false)
    (hleft : p ≠ .leftBracket) (hright : p ≠ .rightBracket) :
    (perform s p).session.mode = s.mode := by
  by_cases hsteers : p.steers = false
  · rw [perform_of_computes s hdefines hsteers]
    rcases he : p.effect? s.dictionary s.stack with _ | e
    · rfl
    · have hmode : e.mode = none := by
        cases p
        case leftBracket => exact absurd rfl hleft
        case rightBracket => exact absurd rfl hright
        case hide | reveal | colon | semicolon => cases hdefines
        case exit | literal | branch | zeroBranch => cases hsteers
        case printStack | words => cases he; rfl
        case print | add | dup | background =>
          obtain ⟨taken, -, rfl⟩ := Option.map_eq_some_iff.mp he
          rfl
      show e.mode.getD s.mode = s.mode
      rw [hmode, Option.getD_none]
  · obtain ⟨stack, cursor, hsession⟩ := session_perform_of_steers s hsteers
    rw [hsession]

theorem step_mode (hallowed : ∀ p, s.upcoming? = some (.primitive p) →
    p.defines = false ∧ p ≠ .leftBracket ∧ p ≠ .rightBracket) : (step s).session.mode = s.mode := by
  apply step_session (P := fun t => t.mode = s.mode) rfl rfl
  intro p hp
  obtain ⟨hdefines, hleft, hright⟩ := hallowed p hp
  exact perform_mode s.skipCell hdefines hleft hright

/-! ## Whole frames -/

section

variable {allowed : Primitive → Prop} {resume : Nat} {outer : List Nat}

theorem not_fault_of_dispatches (h : (s.withReturns (resume :: outer)).Dispatches allowed)
    (f : Failure) (u : Session) : step s ≠ .stop (.returned (some f)) u := by
  intro hstep
  have hsorted := step_sorted s
  have hfaultless := h.faultless
  rw [dispatch_withReturns, hstep] at hfaultless
  rw [hstep] at hsorted
  exact hfaultless hsorted

/-- The step of a frame that only dispatches what is allowed, and what the mirroring session makes of
it. -/
theorem step_of_dispatches (hallowed : ∀ p, allowed p → p.defines = false ∧ p ≠ .words)
    (hdispatches : (s.withReturns (resume :: outer)).Dispatches allowed) (h : s.Mirrors t)
    (hcursor : t.cursor = s.cursor) :
    (step s).Mirrors (step t) ∧ t.SameProgram (step t).session := by
  have hfault := not_fault_of_dispatches hdispatches
  have hplain : ∀ p, s.upcoming? = some (.primitive p) → p.defines = false ∧ p ≠ .words := by
    intro p hp
    exact hallowed p (hdispatches.primitive p hp)
  refine ⟨step_mirrors h hcursor hplain hfault, step_sameProgram ?_⟩
  intro p hp
  rcases hup : s.upcoming? with _ | behavior
  · obtain ⟨f, u, hstep, -⟩ := step_of_upcoming?_eq_none hup
    exact absurd hstep (hfault f u)
  · rw [h.upcoming? hcursor hup] at hp
    cases hp
    exact (hplain p hup).1

/-- A frame whose code works on no definition, lists no words and meets no memory fault ends in the
same way in the session that mirrors the one it runs in. -/
theorem Ends.mirrors (hallowed : ∀ p, allowed p → p.defines = false ∧ p ≠ .words) {u : Session}
    {ending : Ending} {l l' : Option Location} (hends : Ends s ending u) {failure : Option Failure}
    (hall : Call.Always (Session.Dispatches allowed)
      { session := s.withReturns (resume :: outer), failure })
    (h : s.Mirrors t) (hcursor : t.cursor = s.cursor) (hl : s.location = l) (hl' : t.location = l') :
    ∃ ending' v, Ends t ending' v ∧ u.Mirrors v ∧ t.SameProgram v ∧ ending.Mirrors l l' ending' := by
  -- `Always` speaks of the loop, so it is carried along the turns that a step or a callee takes.
  induction hends generalizing failure resume outer t with
  | @stop s u ending hstep =>
    obtain ⟨hmirrors, hsame⟩ := step_of_dispatches hallowed (hall.now rfl) h hcursor
    have hkeeps := step_keeps s
    have hkeeps' := step_keeps t
    rw [hstep] at hmirrors hkeeps
    generalize hstep' : step t = other at hmirrors hsame hkeeps'
    cases hmirrors with
    | @stop _ u' _ _ hu hending =>
      have hul : u.location = l := hkeeps.location.trans hl
      have hul' : u'.location = l' := hkeeps'.location.trans hl'
      rw [hul, hul'] at hending
      exact ⟨_, u', .stop hstep', hu, hsame, hending⟩
  | @next s u v ending hstep _ ih =>
    obtain ⟨hmirrors, hsame⟩ := step_of_dispatches hallowed (hall.now rfl) h hcursor
    have hkeeps := step_keeps s
    have hkeeps' := step_keeps t
    have hrest := hall.turns (.single rfl)
    rw [Call.turn_eq, hstep] at hrest
    rw [hstep] at hmirrors hkeeps
    generalize hstep' : step t = other at hmirrors hsame hkeeps'
    cases hmirrors with
    | next hu hcursor' =>
      obtain ⟨ending', w, hends', hw, hsame', hending⟩ :=
        ih hrest hu hcursor' (hkeeps.location.trans hl) (hkeeps'.location.trans hl')
      exact ⟨ending', w, .next hstep' hends', hw, hsame.trans hsame', hending⟩
  | @call s u v w entry fault ending hstep hcallee _ ih₁ ih₂ =>
    obtain ⟨hmirrors, hsame⟩ := step_of_dispatches hallowed (hall.now rfl) h hcursor
    have hkeeps := step_keeps s
    have hkeeps' := step_keeps t
    have hinner := hall.turns (.single rfl)
    rw [Call.turn_eq, hstep] at hinner
    rw [hstep] at hmirrors hkeeps
    generalize hstep' : step t = other at hmirrors hsame hkeeps'
    cases hmirrors with
    | @call _ u' _ hu hcursor' =>
      obtain ⟨ending₁, v', hcallee', hv, hsame₁, hending₁⟩ :=
        ih₁ (t := { u' with cursor := entry }) hinner (hu.withCursor entry entry) rfl
          (hkeeps.location.trans hl) (hkeeps'.location.trans hl')
      -- An aborted callee is the case of `abort`, so this one has returned.
      cases hending₁ with
      | returned =>
        obtain ⟨n, hturns⟩ := Call.turns_of_ends hcallee failure u.cursor (resume :: outer)
        have hvl : v.location = l :=
          hcallee.keeps.location.trans (hkeeps.location.trans hl)
        have hvl' : v'.location = l' :=
          hcallee'.keeps.location.trans (hkeeps'.location.trans hl')
        obtain ⟨ending₂, w', hrest, hw, hsame₂, hending₂⟩ :=
          ih₂ (hinner.turns hturns) (hv.withCursor u.cursor u'.cursor) hcursor' hvl hvl'
        have htv : t.SameProgram v' := hsame.trans ⟨hsame₁.code, hsame₁.dictionary, hsame₁.phase⟩
        have htw : t.SameProgram w' := htv.trans ⟨hsame₂.code, hsame₂.dictionary, hsame₂.phase⟩
        refine ⟨_, w', .call hstep' hcallee' hrest, hw, htw, ?_⟩
        cases hending₂ with
        | returned => exact .returned
        | aborted cause => exact .aborted cause
  | @abort s u v entry f hstep _ ih =>
    obtain ⟨hmirrors, hsame⟩ := step_of_dispatches hallowed (hall.now rfl) h hcursor
    have hkeeps := step_keeps s
    have hkeeps' := step_keeps t
    have hinner := hall.turns (.single rfl)
    rw [Call.turn_eq, hstep] at hinner
    rw [hstep] at hmirrors hkeeps
    generalize hstep' : step t = other at hmirrors hsame hkeeps'
    cases hmirrors with
    | @call _ u' _ hu hcursor' =>
      obtain ⟨ending', v', hcallee', hv, hsame', hending⟩ :=
        ih (t := { u' with cursor := entry }) hinner (hu.withCursor entry entry) rfl
          (hkeeps.location.trans hl) (hkeeps'.location.trans hl')
      have htv : t.SameProgram v' := hsame.trans ⟨hsame'.code, hsame'.dictionary, hsame'.phase⟩
      cases hending with
      | aborted cause => exact ⟨_, v', .abort hstep' hcallee', hv, htv, .aborted cause⟩

end

end Frame

/-! ## Whole calls -/

namespace Session

variable {s : Session} {allowed : Primitive → Prop} {fuel entry : Nat} {o : Outcome Unit}

/-- A call that works on no definition leaves alone what is compiled. -/
theorem sameProgram_of_run? (hallowed : ∀ p, allowed p → p.defines = false)
    (hall : (Call.start s entry).Always (Dispatches allowed)) (h : s.run? fuel entry = some o) :
    s.SameProgram (Outcome.session o) := by
  obtain ⟨n, -, c, hturns, -, rfl⟩ := run?_eq_some_iff.mp h
  rw [Call.session_outcome]
  refine hall.invariant (I := fun c => s.SameProgram c.session) ?_ hturns ⟨rfl, rfl, rfl⟩
  intro d hd hdispatches hsame
  obtain ⟨cursor, returns, hturn⟩ := Call.session_turn hd
  have hstep := Frame.step_sameProgram fun p hp => hallowed p (hdispatches.primitive p hp)
  rw [hturn]
  exact hsame.trans ⟨hstep.code, hstep.dictionary, hstep.phase⟩

theorem mode_of_run?
    (hallowed : ∀ p, allowed p → p.defines = false ∧ p ≠ .leftBracket ∧ p ≠ .rightBracket)
    (hall : (Call.start s entry).Always (Dispatches allowed)) (h : s.run? fuel entry = some o) :
    (Outcome.session o).mode = s.mode := by
  obtain ⟨n, -, c, hturns, -, rfl⟩ := run?_eq_some_iff.mp h
  rw [Call.session_outcome]
  refine hall.invariant (I := fun c => c.session.mode = s.mode) ?_ hturns rfl
  intro d hd hdispatches hmode
  obtain ⟨cursor, returns, hturn⟩ := Call.session_turn hd
  rw [hturn, ← hmode]
  exact Frame.step_mode fun p hp => hallowed p (hdispatches.primitive p hp)

end Session

end MiniForth
