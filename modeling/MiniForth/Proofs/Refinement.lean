import MiniForth.Proofs.Frame
import MiniForth.Proofs.Reachability

/-!
# The loop refines the recursive meaning

The loop of `MiniForth.Session.Call` and the recursive evaluation of frames are two definitions of
what a call does. They are compared through the derivations `Frame.Ends`.

* `ends_iff_eval?`: a frame has a derivation exactly when its evaluation ends.
* `turns_of_ends`: turns lead the loop from the entry of such a frame to its end, whatever the
  return addresses below it.
* `ends_of_turns`: when the loop gets to its end, the frame it began with has a derivation.
-/

namespace MiniForth

namespace Frame

/-- A frame ends, by the cells it carries out and the frames it calls. -/
inductive Ends : Session → Ending → Session → Prop where
  | stop {s t : Session} {ending : Ending} : step s = .stop ending t → Ends s ending t
  | next {s t u : Session} {ending : Ending} : step s = .next t → Ends t ending u → Ends s ending u
  | call {s t u v : Session} {entry : Nat} {fault : Option Failure} {ending : Ending} :
      step s = .call t entry → Ends { t with cursor := entry } (.returned fault) u →
      Ends { u with cursor := t.cursor } ending v → Ends s (ending.after fault) v
  | abort {s t u : Session} {entry : Nat} {f : Failure} :
      step s = .call t entry → Ends { t with cursor := entry } (.aborted f) u →
      Ends s (.aborted f) u

/-- What every step keeps, wherever the cursor stands, a frame keeps. -/
theorem Ends.invariant {P : Session → Prop} {s t : Session} {ending : Ending} (h : Ends s ending t)
    (hcursor : ∀ s cursor, P s → P { s with cursor := cursor })
    (hkept : ∀ s, P s → P (step s).session) (hs : P s) : P t := by
  induction h with
  | @stop s _ _ hstep =>
    have ht := hkept s hs
    rwa [hstep] at ht
  | @next s _ _ _ hstep _ ih =>
    have ht := hkept s hs
    rw [hstep] at ht
    exact ih ht
  | @call s _ _ _ _ _ _ hstep _ _ ih₁ ih₂ =>
    have ht := hkept s hs
    rw [hstep] at ht
    -- The callee leaves a session that the rest of the frame starts from, at the resume address.
    have hu := ih₁ (hcursor _ _ ht)
    exact ih₂ (hcursor _ _ hu)
  | @abort s _ _ _ _ hstep _ ih =>
    have ht := hkept s hs
    rw [hstep] at ht
    exact ih (hcursor _ _ ht)

/-! ## Derivations and fuel -/

theorem ends_of_eval? {fuel : Nat} {s t : Session} {ending : Ending}
    (h : eval? fuel s = some (ending, t)) : Ends s ending t := by
  induction fuel generalizing s t ending with
  | zero => cases h
  | succ fuel ih =>
    rw [eval?] at h
    rcases hstep : step s with t | ⟨t, entry⟩ | ⟨ending, t⟩
    · rw [hstep] at h
      exact .next hstep (ih h)
    · rw [hstep] at h
      simp only at h
      rcases hcallee : eval? fuel { t with cursor := entry } with _ | ⟨⟨fault⟩ | f, u⟩
      · simp [hcallee] at h
      · rw [hcallee] at h
        obtain ⟨rest, hrest, hr⟩ := Option.map_eq_some_iff.mp h
        cases hr
        exact .call hstep (ih hcallee) (ih hrest)
      · rw [hcallee] at h
        cases h
        exact .abort hstep (ih hcallee)
    · rw [hstep] at h
      cases h
      exact .stop hstep

/-- From some fuel on, the evaluation gives what the derivation says. -/
theorem eval?_of_ends {s t : Session} {ending : Ending} (h : Ends s ending t) :
    ∃ enough, ∀ fuel, enough < fuel → eval? fuel s = some (ending, t) := by
  induction h with
  | stop hstep =>
    refine ⟨0, ?_⟩
    intro fuel hfuel
    obtain ⟨fuel, rfl⟩ := Nat.exists_eq_add_of_lt hfuel
    rw [eval?, hstep]
  | next hstep _ ih =>
    obtain ⟨n, hrest⟩ := ih
    refine ⟨n + 1, ?_⟩
    intro fuel hfuel
    obtain ⟨fuel, rfl⟩ := Nat.exists_eq_add_of_lt hfuel
    rw [eval?, hstep]
    exact hrest _ (by omega)
  | call hstep _ _ ih₁ ih₂ =>
    obtain ⟨m, hcallee⟩ := ih₁
    obtain ⟨n, hrest⟩ := ih₂
    refine ⟨max m n + 1, ?_⟩
    intro fuel hfuel
    obtain ⟨fuel, rfl⟩ := Nat.exists_eq_add_of_lt hfuel
    rw [eval?, hstep]
    simp only
    rw [hcallee _ (by omega)]
    simp only
    rw [hrest _ (by omega)]
    rfl
  | abort hstep _ ih =>
    obtain ⟨n, hcallee⟩ := ih
    refine ⟨n + 1, ?_⟩
    intro fuel hfuel
    obtain ⟨fuel, rfl⟩ := Nat.exists_eq_add_of_lt hfuel
    rw [eval?, hstep]
    simp only
    rw [hcallee _ (by omega)]

theorem ends_iff_eval? {s t : Session} {ending : Ending} :
    Ends s ending t ↔ ∃ fuel, eval? fuel s = some (ending, t) := by
  constructor
  · intro h
    obtain ⟨enough, heval⟩ := eval?_of_ends h
    exact ⟨enough + 1, heval _ (Nat.lt_succ_self _)⟩
  · rintro ⟨fuel, h⟩
    exact ends_of_eval? h

end Frame

/-! ## The loop follows the derivations -/

theorem Ending.resume_after (fault failure : Option Failure) (resume : Nat) (outer : List Nat)
    (t : Session) (ending : Ending) :
    (ending.after fault).resume failure resume outer t =
      ending.resume (failure <|> fault) resume outer t := by
  cases ending <;> cases failure <;> cases fault <;> rfl

namespace Call

open MiniForth.Frame

theorem turns_of_ends {s t : Session} {ending : Ending} (h : Ends s ending t)
    (failure : Option Failure) (resume : Nat) (outer : List Nat) :
    ∃ n, Turns n { session := s.withReturns (resume :: outer), failure }
      (ending.resume failure resume outer t) := by
  induction h generalizing failure resume outer with
  | @stop s t ending hstep =>
    have hturn := turn_eq s failure resume outer
    rw [hstep] at hturn
    exact ⟨1, .turn rfl (by rw [hturn]; exact .refl _)⟩
  | @next s t u ending hstep _ ih =>
    have hturn := turn_eq s failure resume outer
    rw [hstep] at hturn
    obtain ⟨n, hrest⟩ := ih failure resume outer
    exact ⟨n + 1, .turn rfl (hturn ▸ hrest)⟩
  | @call s t u v entry fault ending hstep _ _ ih₁ ih₂ =>
    have hturn := turn_eq s failure resume outer
    rw [hstep] at hturn
    obtain ⟨m, hcallee⟩ := ih₁ failure t.cursor (resume :: outer)
    obtain ⟨n, hrest⟩ := ih₂ (failure <|> fault) resume outer
    rw [Ending.resume_after]
    exact ⟨m + n + 1, .turn rfl (hturn ▸ hcallee.trans hrest)⟩
  | @abort s t u entry f hstep _ ih =>
    have hturn := turn_eq s failure resume outer
    rw [hstep] at hturn
    obtain ⟨n, hcallee⟩ := ih failure t.cursor (resume :: outer)
    -- All return addresses go, so the callee's and the caller's end are the same call.
    have hsame : (Ending.aborted f).resume failure t.cursor (resume :: outer) u =
        (Ending.aborted f).resume failure resume outer u := by
      simp [Ending.resume, List.getLast?_cons]
    exact ⟨n + 1, .turn rfl (hturn ▸ hsame ▸ hcallee)⟩

/-- A loop that ends has the frame it began with ended on the way. -/
theorem ends_of_turns {m : Nat} {s : Session} {failure : Option Failure} {resume : Nat}
    {outer : List Nat} {c : Call}
    (h : Turns m { session := s.withReturns (resume :: outer), failure } c)
    (hc : c.isOver = true) : ∃ ending t, Ends s ending t := by
  -- The frame goes on behind a callee with fewer turns left, but not with one less.
  induction m using Nat.strongRecOn generalizing s failure resume outer with
  | ind m ih =>
    cases h with
    | refl => cases hc
    | @turn n _ _ _ hrest =>
      have hturn := turn_eq s failure resume outer
      rcases hstep : step s with t | ⟨t, entry⟩ | ⟨ending, t⟩
      · rw [hstep] at hturn
        obtain ⟨ending, u, hends⟩ := ih n (Nat.lt_succ_self n) (hturn ▸ hrest)
        exact ⟨ending, u, .next hstep hends⟩
      · rw [hstep] at hturn
        rw [hturn] at hrest
        obtain ⟨ending, u, hcallee⟩ := ih n (Nat.lt_succ_self n) hrest
        cases ending with
        | aborted f => exact ⟨.aborted f, u, .abort hstep hcallee⟩
        | returned fault =>
          obtain ⟨k, hturns⟩ := turns_of_ends hcallee failure t.cursor (resume :: outer)
          obtain ⟨hk, hbehind⟩ := hrest.cancel hc hturns
          obtain ⟨ending, v, hends⟩ := ih (n - k) (by omega) hbehind
          exact ⟨ending.after fault, v, .call hstep hcallee hends⟩
      · exact ⟨ending, t, .stop hstep⟩

end Call

/-! ## Calls of the top level -/

theorem Frame.Ends.keeps {s t : Session} {ending : Ending} (h : Frame.Ends s ending t) :
    s.Keeps t := by
  apply h.invariant (P := s.Keeps) _ _ (.refl s)
  · intro t cursor hst
    exact ⟨hst.returns, hst.location, hst.lines, hst.pending⟩
  · intro t hst
    exact hst.trans (Frame.step_keeps t)

namespace Session

theorem start_eq {s : Session} (hs : s.returns = []) (entry : Nat) :
    Call.start s entry =
      { session := { s with cursor := entry }.withReturns [s.cursor], failure := none } := by
  simp [Call.start, enter, withReturns, hs]

theorem outcome_resume {s t : Session} {entry : Nat} (hs : s.returns = [])
    (hkeeps : { s with cursor := entry }.Keeps t) (ending : Ending) :
    (ending.resume none s.cursor [] t).outcome = ending.outcome { t with cursor := s.cursor } := by
  have hreturns : t.returns = [] := hkeeps.returns.trans hs
  have hsame : { t with cursor := s.cursor }.withReturns [] = { t with cursor := s.cursor } := by
    simp [withReturns, hreturns]
  rcases ending with ⟨_ | f⟩ | f
  · exact congrArg (EStateM.Result.ok ()) hsame
  · exact congrArg (EStateM.Result.error f) hsame
  · exact congrArg (EStateM.Result.error f) hsame

/-- A call of the top level answers what the frame at its entry comes to. -/
theorem run?_iff_ends {s : Session} (hs : s.returns = []) {entry : Nat} {o : Outcome Unit} :
    (∃ fuel, s.run? fuel entry = some o) ↔
      ∃ ending t, Frame.Ends { s with cursor := entry } ending t ∧
        ending.outcome { t with cursor := s.cursor } = o := by
  constructor
  · rintro ⟨fuel, hrun⟩
    obtain ⟨m, -, c, hturns, hc, rfl⟩ := run?_eq_some_iff.mp hrun
    rw [start_eq hs] at hturns
    obtain ⟨ending, t, hends⟩ := Call.ends_of_turns hturns hc
    obtain ⟨n, hend⟩ := Call.turns_of_ends hends none s.cursor []
    -- The call is over at the end of its only frame, so that is where the turns stop.
    have hover : (ending.resume none s.cursor [] t).isOver = true := by cases ending <;> rfl
    have hsame : ending.resume none s.cursor [] t = c := hturns.eq_of_isOver hc hend hover
    exact ⟨ending, t, hends, by rw [← outcome_resume hs hends.keeps, hsame]⟩
  · rintro ⟨ending, t, hends, rfl⟩
    obtain ⟨n, hend⟩ := Call.turns_of_ends hends none s.cursor []
    have hover : (ending.resume none s.cursor [] t).isOver = true := by cases ending <;> rfl
    refine ⟨n, run?_eq_some_iff.mpr ⟨n, Nat.le_refl n, _, ?_, hover, outcome_resume hs hends.keeps _⟩⟩
    rw [start_eq hs]
    exact hend

/-- The loop and the recursive evaluation answer the same. -/
theorem run?_iff_evaluate? {s : Session} (hs : s.Reachable) (entry : Nat) (o : Outcome Unit) :
    (∃ fuel, s.run? fuel entry = some o) ↔ ∃ fuel, s.evaluate? fuel entry = some o := by
  rw [run?_iff_ends hs.returns_eq_nil]
  constructor
  · rintro ⟨ending, t, hends, rfl⟩
    obtain ⟨fuel, heval⟩ := Frame.ends_iff_eval?.mp hends
    exact ⟨fuel, Option.map_eq_some_iff.mpr ⟨(ending, t), heval, rfl⟩⟩
  · rintro ⟨fuel, heval⟩
    obtain ⟨⟨ending, t⟩, hends, rfl⟩ := Option.map_eq_some_iff.mp heval
    exact ⟨ending, t, Frame.ends_iff_eval?.mpr ⟨fuel, hends⟩, rfl⟩

/-- A session after `: bad branch 99 ; : outer bad 5 ;`. The branch passes over the cell that announces
the number, so `bad` meets the number as if it were a word. -/
def faulty : Session :=
  { Session.initial with
    code       := ⟨#[15, 2, 99, 0, 17, 2, 5, 0]⟩
    cursor     := 8
    dictionary := (Vocabulary.dictionary.add { name := "bad", behavior := .compiled 0 }).add
      { name := "outer", behavior := .compiled 4 }
    lines      := 1 }

theorem process?_faulty :
    process? 0 .initial ": bad branch 99 ; : outer bad 5 ;" = some ({}, faulty) := by decide +kernel

theorem reachable_faulty : faulty.Reachable := .line .initial process?_faulty

/-- The fault in `bad` ends it, and `outer` goes on to push its number. -/
theorem faulty_evaluates : faulty.Reachable ∧ ∃ fuel, faulty.evaluate? fuel 4 =
    some (.error (.ofCause none (.notAWord 99 2)) { faulty with stack := ⟨#[5]⟩ }) :=
  ⟨reachable_faulty, (run?_iff_evaluate? reachable_faulty 4 _).mp ⟨6, rfl⟩⟩

end Session

end MiniForth
