import MiniForth.Proofs.Refinement

/-!
# Call discipline

Calls and returns match. Between operations no call is running, and a call of the top level puts the
cursor back whatever becomes of it.

* `home_turn`: the cursor that the outermost call found is kept by every turn.
* `disciplined_of_running`: there is a return address wherever one is taken, so an underflow is one
  of the parameter stack.
* `Attainable.call_discipline`: both, for every session there is.
-/

namespace MiniForth

namespace Session

/-- The cursor that the outermost running call found, or the cursor if none is running. -/
def home (s : Session) : Nat := s.returns.getLast?.getD s.cursor

@[simp] theorem home_withReturns_cons (s : Session) (resume : Nat) (outer : List Nat) :
    (s.withReturns (resume :: outer)).home = outer.getLast?.getD resume := by
  simp [home, List.getLast?_cons]

theorem home_of_returns_eq_nil {s : Session} (hs : s.returns = []) : s.home = s.cursor := by
  simp [home, hs]

end Session

/-! ## Steps that fail -/

namespace Frame

theorem size_lt_arity_of_perform {s t : Session} {p : Primitive} {f : Failure}
    (h : perform s p = .stop (.aborted f) t) (hkind : f.kind = .stackUnderflow) :
    s.stack.size < p.arity := by
  by_cases hplain : p.steers = false ∧ p ≠ .semicolon
  · rw [perform_of_not_steers s hplain.1 hplain.2] at h
    split at h
    · cases h
    · next g u hp =>
      cases h
      obtain ⟨hrefuses, rfl, -⟩ := Primitive.perform_error hp
      cases p
      case colon => cases hkind
      case semicolon => exact absurd rfl hplain.2
      all_goals exact hrefuses
  · cases p
    case exit | branch => cases h
    case literal =>
      rw [perform] at h
      split at h <;> cases h
    case zeroBranch =>
      rw [perform] at h
      split at h
      · split at h <;> cases h
      · next hpop => simp [Primitive.arity, Stack.size_of_pop?_eq_none hpop]
    case semicolon =>
      simp only [perform] at h
      split at h
      · cases h
      · cases h
        cases hkind
    all_goals exact absurd ⟨rfl, by decide⟩ hplain

/-- A step that underflows carries out a primitive on too few cells. -/
theorem upcoming?_of_step {s t : Session} {f : Failure} (h : step s = .stop (.aborted f) t)
    (hkind : f.kind = .stackUnderflow) :
    ∃ p, s.upcoming? = some (.primitive p) ∧ s.stack.size < p.arity := by
  rw [step] at h
  split at h
  · cases h
  · next cell hcell =>
    split at h
    · cases h
    · cases h
    · next p hp =>
      have hsize := size_lt_arity_of_perform h hkind
      refine ⟨p, ?_, hsize⟩
      rw [Session.upcoming?, Session.behaviorAt?, hcell]
      exact hp

end Frame

/-! ## Running calls -/

namespace Call

/-- What a running call may rely on. -/
structure Disciplined (c : Call) : Prop where
  /-- `exit` finds a return address. -/
  exits : c.session.upcoming? = some (.primitive .exit) → ∃ t, dispatch c.session = .ok () t
  /-- So does what gives up the innermost call, or all of them, after a failure. -/
  recovers : ∀ f t, dispatch c.session = .error f t → t.returns ≠ []
  /-- An underflow is one of the parameter stack. -/
  underflows : ∀ f t, dispatch c.session = .error f t → f.kind = .stackUnderflow →
    ∃ p, c.session.upcoming? = some (.primitive p) ∧ c.session.stack.size < p.arity

theorem disciplined_of_running {c : Call} (hc : c.isOver = false) : c.Disciplined := by
  obtain ⟨resume, outer, hframe⟩ := frame_of_running hc
  have hdispatch : dispatch c.session = (Frame.step c.session).outcome resume outer := by
    rw [← dispatch_withReturns, ← hframe]
  refine ⟨?_, ?_, ?_⟩
  · intro hexit
    rw [hdispatch, Frame.step_of_primitive hexit]
    exact ⟨_, rfl⟩
  · intro f t herror
    rw [hdispatch] at herror
    rcases hstep : Frame.step c.session with u | ⟨u, entry⟩ | ⟨⟨_ | g⟩ | g, u⟩
    all_goals
      rw [hstep] at herror
      cases herror
    · exact List.cons_ne_nil resume outer
    · exact List.cons_ne_nil resume outer
  · intro f t herror hkind
    have hsorted := Frame.step_sorted c.session
    rw [hdispatch] at herror
    rcases hstep : Frame.step c.session with u | ⟨u, entry⟩ | ⟨⟨_ | g⟩ | g, u⟩
    all_goals
      rw [hstep] at herror hsorted
      cases herror
    · -- A frame that returns with a failure met a memory fault.
      have hfault : f.kind = .memoryFault := hsorted
      rw [hkind] at hfault
      cases hfault
    · exact Frame.upcoming?_of_step hstep hkind

/-- A turn keeps the cursor that the outermost call will put back. -/
theorem home_turn {c : Call} (hc : c.isOver = false) : c.turn.session.home = c.session.home := by
  obtain ⟨resume, outer, hframe⟩ := frame_of_running hc
  have hturn := turn_eq c.session c.failure resume outer
  rw [← hframe] at hturn
  have hhome : c.session.home = outer.getLast?.getD resume := by
    rw [hframe, Session.home_withReturns_cons]
  rw [show c.turn = _ from hturn, hhome]
  rcases Frame.step c.session with t | ⟨t, entry⟩ | ⟨⟨fault⟩ | f, t⟩
  · exact Session.home_withReturns_cons t resume outer
  · simp [List.getLast?_cons]
  · rfl
  · rfl

theorem home_of_turns {n : Nat} {c d : Call} (h : Turns n c d) :
    d.session.home = c.session.home :=
  h.invariant (I := fun d => d.session.home = c.session.home)
    (fun _ hrunning ih => (home_turn hrunning).trans ih) rfl

end Call

/-! ## Calls of the top level -/

namespace Session

theorem home_start {s : Session} (hs : s.returns = []) (entry : Nat) :
    (Call.start s entry).session.home = s.cursor := by
  simp [Call.start, enter, home, hs]

theorem cursor_of_run? {fuel entry : Nat} {s : Session} {o : Outcome Unit} (hs : s.returns = [])
    (h : s.run? fuel entry = some o) : (Outcome.session o).cursor = s.cursor := by
  obtain ⟨n, -, c, hturns, hc, rfl⟩ := run?_eq_some_iff.mp h
  have hnil : c.session.returns = [] := List.isEmpty_iff.mp hc
  rw [Call.session_outcome, ← home_of_returns_eq_nil hnil, Call.home_of_turns hturns, home_start hs]

/-- A failure that a call of the top level answers with was met by one of its dispatches. -/
theorem dispatch_of_run? {fuel entry : Nat} {s t : Session} {f : Failure}
    (h : s.run? fuel entry = some (.error f t)) :
    ∃ n c u, Call.Turns n (Call.start s entry) c ∧ c.isOver = false ∧
      dispatch c.session = .error f u := by
  obtain ⟨n, -, c, hturns, -, ho⟩ := run?_eq_some_iff.mp h
  have hf : c.failure = some f := by
    rw [Call.outcome] at ho
    split at ho
    · cases ho
    · next g hg => cases ho; exact hg
  exact hturns.dispatch_of_failure rfl hf

/-- Between operations no call is running. A call of the top level leaves none running and the cursor
where it was. It takes a return address only where there is one, and when it reports an underflow, it
was carrying out a primitive on fewer cells than that takes. -/
theorem Attainable.call_discipline {s : Session} (hs : s.Attainable) :
    s.returns = [] ∧ ∀ entry,
      (∀ fuel o, s.run? fuel entry = some o →
        (Outcome.session o).returns = [] ∧ (Outcome.session o).cursor = s.cursor) ∧
      (∀ n c, Call.Turns n (Call.start s entry) c → c.isOver = false → c.Disciplined) ∧
      (∀ fuel f t, s.run? fuel entry = some (.error f t) → f.kind = .stackUnderflow →
        ∃ n c u p, Call.Turns n (Call.start s entry) c ∧ c.isOver = false ∧
          dispatch c.session = .error f u ∧ c.session.upcoming? = some (.primitive p) ∧
          c.session.stack.size < p.arity) := by
  have hnil := hs.returns_eq_nil
  refine ⟨hnil, ?_⟩
  intro entry
  refine ⟨?_, ?_, ?_⟩
  · intro fuel o hrun
    exact ⟨returns_of_run? hrun, cursor_of_run? hnil hrun⟩
  · intro n c _ hc
    exact Call.disciplined_of_running hc
  · intro fuel f t hrun hkind
    obtain ⟨n, c, u, hturns, hc, hdispatch⟩ := dispatch_of_run? hrun
    obtain ⟨p, hp, hsize⟩ := (Call.disciplined_of_running hc).underflows f u hdispatch hkind
    exact ⟨n, c, u, p, hturns, hc, hdispatch, hp, hsize⟩

/-- The session after `: bad branch 99 ; : outer bad 5 ;` and then a memory fault two calls deep. -/
theorem faulty_keeps_cursor : faulty.returns = [] ∧ ∃ o, faulty.run? 6 4 = some o ∧
    (Outcome.session o).returns = [] ∧ (Outcome.session o).cursor = 8 := by
  have hline : (Operation.line ": bad branch 99 ; : outer bad 5 ;").carryOut? 0 .initial = some faulty :=
    congrArg (Option.map Prod.snd) process?_faulty
  have hattainable : faulty.Attainable := .operate .initial hline
  obtain ⟨hnil, hcalls⟩ := hattainable.call_discipline
  exact ⟨hnil, _, rfl, (hcalls 4).1 6 _ rfl⟩

end Session

end MiniForth
