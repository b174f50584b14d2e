import MiniForth.Proofs.Frame
import MiniForth.Proofs.Reachability

/-!
# The first failure of a call

A call meets any number of failures: each memory fault gives up one frame, and its caller goes on and
may fail again, in the same way or in another one. What the call reports is the failure that was met
first.

`Call.visits` lists the sessions of a call before each of its dispatches, in the order of time.

* `fault_turn`: what a memory fault does.
* `failure_of_finish?`: what the call has met when it is over.
* `Session.run?_first_failure`: what it reports, and how it goes on behind a failure.
-/

namespace MiniForth

/-- The failure that the next dispatch meets, if it does. -/
def Session.upcomingFailure? (s : Session) : Option Failure := Outcome.failure? (dispatch s)

namespace Frame

/-- A primitive meets a memory fault only where a number is missing from code, and then it has done
nothing. -/
theorem perform_of_fault {s t : Session} {p : Primitive} {f : Failure}
    (h : perform s p = .stop (.returned (some f)) t) : t = s := by
  cases p
  case exit | branch => cases h
  case literal =>
    rw [perform] at h
    split at h
    · cases h
    · cases h
      rfl
  case zeroBranch =>
    rw [perform] at h
    split at h
    · split at h <;> cases h
    · cases h
  case semicolon =>
    rw [perform] at h
    split at h <;> cases h
  all_goals
    rw [perform] at h
    · split at h <;> cases h
    all_goals exact Primitive.noConfusion

/-- A memory fault leaves everything as it is, but for the cursor. -/
theorem step_of_fault {s t : Session} {f : Failure} (h : step s = .stop (.returned (some f)) t) :
    ∃ cursor, t = { s with cursor } := by
  rcases hup : s.upcoming? with _ | ⟨p⟩ | ⟨entry⟩
  · obtain ⟨g, u, hstep, hu⟩ := step_of_upcoming?_eq_none hup
    rw [hstep] at h
    cases h
    rcases hu with hu | hu
    · exact ⟨s.cursor, hu⟩
    · exact ⟨s.cursor + 1, hu⟩
  · rw [step_of_primitive hup] at h
    exact ⟨s.cursor + 1, perform_of_fault h⟩
  · rw [step_of_compiled hup] at h
    cases h

end Frame

namespace Call

/-! ## One turn -/

theorem failure_turn (c : Call) :
    c.turn.failure = (c.failure <|> c.session.upcomingFailure?) := by
  rw [turn, Session.upcomingFailure?]
  rcases dispatch c.session with ⟨⟨⟩, s⟩ | ⟨f, s⟩
  · simp [Outcome.failure?]
  · rfl

/-- A memory fault takes away the innermost frame and nothing else, and its caller goes on. -/
theorem fault_turn {c : Call} {f : Failure} {t : Session} (hc : c.isOver = false)
    (h : dispatch c.session = .error f t) (hf : f.kind = .memoryFault) :
    ∃ resume outer, c.session.returns = resume :: outer ∧
      c.turn.session = { c.session with cursor := resume, returns := outer } := by
  obtain ⟨resume, outer, hframe⟩ := frame_of_running hc
  refine ⟨resume, outer, congrArg Session.returns hframe, ?_⟩
  have hsorted := Frame.step_sorted c.session
  have hturn := turn_eq c.session c.failure resume outer
  rw [← hframe] at hturn
  rw [hframe, dispatch_withReturns] at h
  rw [show c.turn = _ from hturn]
  rcases hstep : Frame.step c.session with u | ⟨u, entry⟩ | ⟨⟨_ | g⟩ | g, u⟩
  · rw [hstep] at h; cases h
  · rw [hstep] at h; cases h
  · rw [hstep] at h; cases h
  · obtain ⟨cursor, rfl⟩ := Frame.step_of_fault hstep
    rfl
  · -- A frame that aborts has met something else.
    rw [hstep] at h hsorted
    cases h
    exact absurd hf hsorted

/-- Any other failure ends the call. -/
theorem isOver_turn {c : Call} {f : Failure} {t : Session} (h : dispatch c.session = .error f t)
    (hf : f.kind ≠ .memoryFault) : c.turn.isOver = true := by
  rw [turn, h]
  simp only [if_neg hf]
  rfl

/-! ## The whole run -/

theorem visits_of_isOver {c : Call} (hc : c.isOver = true) (fuel : Nat) : c.visits fuel = [] := by
  cases fuel with
  | zero => rfl
  | succ fuel => rw [visits, if_pos hc]

variable {fuel : Nat} {c d : Call}

/-- When a call is over, the failure that it has met is the one it had met before, or else the first
one of its dispatches. -/
theorem failure_of_finish? (h : c.finish? fuel = some d) :
    d.failure = (c.failure <|> (c.visits fuel).findSome? Session.upcomingFailure?) := by
  induction fuel generalizing c with
  | zero =>
    rw [finish?] at h
    split at h
    · cases h
      simp [visits]
    · cases h
  | succ fuel ih =>
    rw [finish?] at h
    rw [visits]
    split at h
    · next hc =>
      cases h
      simp [hc]
    · next hc =>
      rw [if_neg hc, ih h, failure_turn, List.findSome?_cons]
      rcases c.failure with _ | first
      · rcases c.session.upcomingFailure? with _ | f <;> rfl
      · rfl

/-- The first session of a run is the one it starts in. -/
theorem head?_visits (h : c.finish? fuel = some d) :
    (c.visits fuel ++ [d.session]).head? = some c.session := by
  rcases hc : c.isOver
  · cases fuel with
    | zero => simp [finish?, hc] at h
    | succ fuel => simp [visits, hc]
  · rw [finish?_of_isOver hc] at h
    cases h
    rw [visits_of_isOver hc]
    rfl

/-- Every session of a run is the session of a call that dispatches next, and the sessions behind it
are those of the run that its turn begins. -/
theorem exists_of_visits {before after : List Session} {u : Session} (h : c.finish? fuel = some d)
    (hvisits : c.visits fuel = before ++ u :: after) :
    ∃ (b : Call) (rest : Nat), b.isOver = false ∧ b.session = u ∧ b.turn.finish? rest = some d ∧
      b.turn.visits rest = after := by
  induction fuel generalizing c before with
  | zero => simp [visits] at hvisits
  | succ fuel ih =>
    rcases hc : c.isOver
    · rw [finish?, if_neg (by simp [hc])] at h
      rw [visits, if_neg (by simp [hc])] at hvisits
      rcases before with _ | ⟨first, before⟩
      · obtain ⟨hfirst, hrest⟩ := List.cons.inj hvisits
        exact ⟨c, fuel, hc, hfirst, h, hrest⟩
      · exact ih h (List.cons.inj hvisits).2
    · simp [visits_of_isOver hc] at hvisits

end Call

namespace Session

/-- A call answers with the failure of the first of its dispatches that fails, and without a failure
exactly if none does. Where a dispatch meets a memory fault, the next session is the one before it
less its innermost frame; any other failure is that of the last dispatch. -/
theorem run?_first_failure {s : Session} {fuel entry : Nat} {o : Outcome Unit}
    (h : s.run? fuel entry = some o) :
    (o.failure? = none ↔ ∀ u ∈ (Call.start s entry).visits fuel, u.upcomingFailure? = none) ∧
      o.failure? = ((Call.start s entry).visits fuel).findSome? (Session.upcomingFailure?) ∧
      ∀ before u after f t, (Call.start s entry).visits fuel = before ++ u :: after →
        dispatch u = .error f t →
          if f.kind = .memoryFault then
            ∃ resume outer, u.returns = resume :: outer ∧
              (after ++ [Outcome.session o]).head? =
                some { u with cursor := resume, returns := outer }
          else after = [] := by
  obtain ⟨d, hfinish, rfl⟩ := Option.map_eq_some_iff.mp h
  have hfirst : d.outcome.failure? =
      ((Call.start s entry).visits fuel).findSome? (Session.upcomingFailure?) := by
    rw [Call.failure?_outcome, Call.failure_of_finish? hfinish]
    rfl
  refine ⟨?_, hfirst, ?_⟩
  · rw [hfirst, List.findSome?_eq_none_iff]
  · intro before u after f t hvisits hdispatch
    obtain ⟨b, rest, hb, rfl, hrest, rfl⟩ := Call.exists_of_visits hfinish hvisits
    split
    · next hf =>
      obtain ⟨resume, outer, hreturns, hturn⟩ := Call.fault_turn hb hdispatch hf
      refine ⟨resume, outer, hreturns, ?_⟩
      rw [Call.session_outcome, Call.head?_visits hrest, hturn]
    · next hf => exact Call.visits_of_isOver (Call.isOver_turn hdispatch hf) rest

/-- A session after `: bad branch 99 ; : worse bad bad + ;`. -/
def brittle : Session :=
  { Session.initial with
    code       := ⟨#[15, 2, 99, 0, 17, 17, 10, 0]⟩
    cursor     := 8
    dictionary := (Vocabulary.dictionary.add { name := "bad", behavior := .compiled 0 }).add
      { name := "worse", behavior := .compiled 4 }
    lines      := 1 }

/-- Two memory faults and then an underflow: the first of the three is reported. -/
theorem brittle_first_failure : brittle.Reachable ∧
    ((Call.start brittle 4).visits 9).filterMap upcomingFailure? =
      [.ofCause none (.notAWord 99 2), .ofCause none (.notAWord 99 2),
       .ofCause none (.tooFewCells 2 0)] ∧
    ∃ o, brittle.run? 9 4 = some o ∧ o.failure? = some (.ofCause none (.notAWord 99 2)) := by
  have hprocess : process? 0 .initial ": bad branch 99 ; : worse bad bad + ;" =
      some ({}, brittle) := by decide +kernel
  have hrun : brittle.run? 9 4 = some (.error (.ofCause none (.notAWord 99 2)) brittle) := rfl
  obtain ⟨-, hfirst, -⟩ := run?_first_failure hrun
  refine ⟨.line .initial hprocess, by decide +kernel, _, hrun, ?_⟩
  rw [hfirst]
  decide +kernel

end Session

end MiniForth
