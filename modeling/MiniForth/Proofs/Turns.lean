import MiniForth.Proofs.Effect

/-!
# Runs of turns

`Call.finish?` counts its turns down. `Call.Turns` states the same without fuel: `Turns n c d` holds
when `n` turns lead from `c` to `d`, with `c` and all calls before `d` still running. Statements about
a whole run are proved by induction on it.

* `finish?_eq_some_iff`: what `finish?` answers is where the turns end.
* `Turns.cancel`: turns are deterministic, so a run that ends passes through every call it reaches.
* `Turns.dispatch_of_failure`: where the failure comes from that a call reports.
* `run?_mono`: more fuel does not change an answer.
-/

namespace MiniForth

namespace Call

/-- `n` turns lead from a call to another one. -/
inductive Turns : Nat → Call → Call → Prop where
  | refl (c : Call) : Turns 0 c c
  | turn {n : Nat} {c d : Call} : c.isOver = false → Turns n c.turn d → Turns (n + 1) c d

namespace Turns

theorem single {c : Call} (hc : c.isOver = false) : Turns 1 c c.turn := .turn hc (.refl _)

theorem trans {m n : Nat} {c d e : Call} (h₁ : Turns m c d) (h₂ : Turns n d e) :
    Turns (m + n) c e := by
  induction h₁ with
  | refl => rwa [Nat.zero_add]
  | turn hc _ ih => rw [Nat.add_right_comm]; exact .turn hc (ih h₂)

/-- What holds at the start and is kept by every turn of a running call holds at the end. -/
theorem invariant {I : Call → Prop} (hstep : ∀ c, c.isOver = false → I c → I c.turn) {n : Nat}
    {c d : Call} (h : Turns n c d) (hc : I c) : I d := by
  induction h with
  | refl => exact hc
  | turn hrunning _ ih => exact ih (hstep _ hrunning hc)

/-- A run that ends passes through every call it reaches on the way. -/
theorem cancel {m n : Nat} {c d e : Call} (hend : Turns m c e) (he : e.isOver = true)
    (h : Turns n c d) : n ≤ m ∧ Turns (m - n) d e := by
  induction h generalizing m with
  | refl => exact ⟨Nat.zero_le _, hend⟩
  | turn hc _ ih =>
    cases hend with
    -- The run has not ended at a call that is still running.
    | refl => rw [hc] at he; cases he
    | turn _ hend =>
      obtain ⟨hle, hturns⟩ := ih hend
      exact ⟨Nat.succ_le_succ hle, by rwa [Nat.add_sub_add_right]⟩

/-- A run has one end. -/
theorem eq_of_isOver {m n : Nat} {c d e : Call} (hd : Turns m c d) (hdover : d.isOver = true)
    (he : Turns n c e) (heover : e.isOver = true) : e = d := by
  obtain ⟨-, hrest⟩ := hd.cancel hdover he
  generalize m - n = k at hrest
  cases hrest with
  | refl => rfl
  | turn hrunning => rw [heover] at hrunning; cases hrunning

end Turns

/-- Whenever the call is about to dispatch, `P` holds. -/
def Always (P : Session → Prop) (c : Call) : Prop :=
  ∀ n d, Turns n c d → d.isOver = false → P d.session

namespace Always

variable {P : Session → Prop} {n : Nat} {c d : Call}

theorem now (h : c.Always P) (hc : c.isOver = false) : P c.session := h 0 c (.refl c) hc

theorem turns (h : c.Always P) (hturns : Turns n c d) : d.Always P := by
  intro m e hrest he
  exact h (n + m) e (hturns.trans hrest) he

theorem invariant (h : c.Always P) {I : Call → Prop}
    (hstep : ∀ c, c.isOver = false → P c.session → I c → I c.turn) (hturns : Turns n c d)
    (hc : I c) : I d := by
  induction hturns with
  | refl => exact hc
  | turn hrunning _ ih =>
    exact ih (h.turns (.single hrunning)) (hstep _ hrunning (h.now hrunning) hc)

end Always

/-- A call comes to its end if every turn lowers a measure, and takes no more turns than that. -/
theorem exists_end_of_measure {P : Session → Prop} {I : Call → Prop} (measure : Call → Nat)
    (hstep : ∀ c, c.isOver = false → (c.turn.isOver = false → P c.turn.session) → I c →
      I c.turn ∧ measure c.turn < measure c)
    {c : Call} (hall : c.Always P) (hc : I c) :
    ∃ n ≤ measure c, ∃ d, Turns n c d ∧ d.isOver = true := by
  induction hmeasure : measure c using Nat.strongRecOn generalizing c with
  | ind k ih =>
    subst hmeasure
    rcases hover : c.isOver
    · have hrest := hall.turns (.single hover)
      obtain ⟨hturn, hlt⟩ := hstep c hover hrest.now hc
      obtain ⟨n, hn, d, hturns, hd⟩ := ih (measure c.turn) hlt hrest hturn rfl
      exact ⟨n + 1, by omega, d, .turn hover hturns, hd⟩
    · exact ⟨0, Nat.zero_le _, c, .refl c, hover⟩

/-- The sessions that a call is in before it dispatches. -/
def visits : Nat → Call → List Session
  | 0, _        => []
  | fuel + 1, c => if c.isOver then [] else c.session :: visits fuel c.turn

/-- Where a call comes to its end, `Always` can be checked. -/
theorem always_of_visits {P : Session → Prop} {fuel : Nat} {c : Call}
    (hend : (c.finish? fuel).isSome) (h : ∀ s ∈ c.visits fuel, P s) : c.Always P := by
  intro n d hturns hd
  induction hturns generalizing fuel with
  | refl c =>
    cases fuel with
    | zero => simp [finish?, hd] at hend
    | succ fuel =>
      apply h
      rw [visits, if_neg (by simp [hd])]
      exact List.mem_cons_self
  | @turn n c d hc _ ih =>
    cases fuel with
    | zero => simp [finish?, hc] at hend
    | succ fuel =>
      rw [finish?, if_neg (by simp [hc])] at hend
      rw [visits, if_neg (by simp [hc])] at h
      exact ih hend (fun s hs => h s (List.mem_cons_of_mem _ hs)) hd

/-- `Always`, checked for a call that comes to its end within `fuel` turns. -/
def checks (P : Session → Prop) [DecidablePred P] (fuel : Nat) (c : Call) : Bool :=
  (c.finish? fuel).isSome && (c.visits fuel).all fun s => decide (P s)

theorem always_of_checks {P : Session → Prop} [DecidablePred P] {fuel : Nat} {c : Call}
    (h : c.checks P fuel = true) : c.Always P := by
  rw [checks, Bool.and_eq_true, List.all_eq_true] at h
  refine always_of_visits h.1 ?_
  intro s hs
  exact of_decide_eq_true (h.2 s hs)

/-! ## The failure that a call reports -/

theorem session_outcome (c : Call) : Outcome.session c.outcome = c.session := by
  rw [Call.outcome]
  split <;> rfl

theorem failure?_outcome (c : Call) : c.outcome.failure? = c.failure := by
  rw [outcome]
  split
  · next h => exact h.symm
  · next f h => exact h.symm

theorem failure_turn_of_some {c : Call} {f : Failure} (h : c.failure = some f) :
    c.turn.failure = some f := by
  rw [turn]
  split
  · exact h
  · simp [h]

theorem failure_turn_of_none {c : Call} {f : Failure} (h : c.failure = none)
    (hf : c.turn.failure = some f) : ∃ t, dispatch c.session = .error f t := by
  rw [turn] at hf
  split at hf
  · rw [h] at hf
    cases hf
  · next g t hdispatch =>
    have hfg : some g = some f := by simpa [h] using hf
    cases hfg
    exact ⟨t, hdispatch⟩

/-- A failure that is reported was met by a dispatch on the way. -/
theorem Turns.dispatch_of_failure {n : Nat} {c d : Call} {f : Failure} (h : Turns n c d)
    (hc : c.failure = none) (hf : d.failure = some f) :
    ∃ m b t, Turns m c b ∧ b.isOver = false ∧ dispatch b.session = .error f t := by
  induction h with
  | refl => rw [hc] at hf; cases hf
  | @turn n c d hrunning hrest ih =>
    cases hturn : c.turn.failure with
    | none =>
      obtain ⟨m, b, t, hturns, hb, hdispatch⟩ := ih hturn hf
      exact ⟨m + 1, b, t, .turn hrunning hturns, hb, hdispatch⟩
    | some g =>
      -- The first failure stays, so it is the one that is reported.
      have hkept : d.failure = some g :=
        hrest.invariant (I := fun c => c.failure = some g)
          (fun _ _ h => failure_turn_of_some h) hturn
      obtain ⟨t, hdispatch⟩ := failure_turn_of_none hc hturn
      rw [hkept] at hf
      cases hf
      exact ⟨0, c, t, .refl c, hrunning, hdispatch⟩

/-! ## Turns and fuel -/

theorem finish?_of_isOver {c : Call} (hc : c.isOver = true) (fuel : Nat) :
    c.finish? fuel = some c := by
  cases fuel <;> simp [finish?, hc]

theorem finish?_of_turns {n : Nat} {c d : Call} (h : Turns n c d) (fuel : Nat) :
    c.finish? (n + fuel) = d.finish? fuel := by
  induction h with
  | refl => rw [Nat.zero_add]
  | turn hc _ ih => rw [Nat.add_right_comm, finish?, if_neg (by simp [hc]), ih]

theorem finish?_eq_some_iff {fuel : Nat} {c d : Call} :
    c.finish? fuel = some d ↔ ∃ n ≤ fuel, Turns n c d ∧ d.isOver = true := by
  constructor
  · intro h
    induction fuel generalizing c with
    | zero =>
      rw [finish?] at h
      split at h
      · next hc => cases h; exact ⟨0, Nat.le_refl _, .refl _, hc⟩
      · cases h
    | succ fuel ih =>
      rw [finish?] at h
      split at h
      · next hc => cases h; exact ⟨0, Nat.zero_le _, .refl _, hc⟩
      · next hc =>
        obtain ⟨n, hn, hturns, hd⟩ := ih h
        exact ⟨n + 1, Nat.succ_le_succ hn, .turn (by simpa using hc) hturns, hd⟩
  · rintro ⟨n, hn, hturns, hd⟩
    obtain ⟨rest, rfl⟩ := Nat.exists_eq_add_of_le hn
    rw [finish?_of_turns hturns, finish?_of_isOver hd]

end Call

namespace Session

theorem run?_eq_some_iff {fuel : Nat} {s : Session} {entry : Nat} {o : Outcome Unit} :
    s.run? fuel entry = some o ↔
      ∃ n ≤ fuel, ∃ c, Call.Turns n (Call.start s entry) c ∧ c.isOver = true ∧ c.outcome = o := by
  rw [run?, Option.map_eq_some_iff]
  constructor
  · rintro ⟨c, hfinish, ho⟩
    obtain ⟨n, hn, hturns, hc⟩ := Call.finish?_eq_some_iff.mp hfinish
    exact ⟨n, hn, c, hturns, hc, ho⟩
  · rintro ⟨n, hn, c, hturns, hc, ho⟩
    exact ⟨c, Call.finish?_eq_some_iff.mpr ⟨n, hn, hturns, hc⟩, ho⟩

/-- More fuel does not change what a call answers. -/
theorem run?_mono {m n : Nat} {s : Session} {entry : Nat} {o : Outcome Unit} (hmn : m ≤ n)
    (h : s.run? m entry = some o) : s.run? n entry = some o := by
  obtain ⟨k, hk, hrest⟩ := run?_eq_some_iff.mp h
  exact run?_eq_some_iff.mpr ⟨k, Nat.le_trans hk hmn, hrest⟩

/-- What a call answers does not depend on the fuel. -/
theorem run?_unique {m n : Nat} {s : Session} {entry : Nat} {o o' : Outcome Unit}
    (h : s.run? m entry = some o) (h' : s.run? n entry = some o') : o' = o := by
  have hmax := run?_mono (Nat.le_max_left m n) h
  rw [run?_mono (Nat.le_max_right m n) h'] at hmax
  exact Option.some.inj hmax

end Session

end MiniForth
