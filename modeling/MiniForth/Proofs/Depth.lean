import MiniForth.Proofs.Writes

/-!
# Calls that do not end

A frame moves its cursor forward with every cell, and behind the end of code memory it finds nothing or
an `exit`. This holds while code is being rewritten too, for what running code writes is an `exit`
itself. So a frame is short, and a call that goes on for ever has to go deeper and deeper.

To count turns, a frame that is running is weighed by the cells in front of it, each at a price that
covers all calls that can still be made below it.

* `step_movesOn`, `Sealed.stops`: how far a frame gets.
* `weight_turn`: every turn takes off weight.
* `Reachable.ends_of_depth`: so a call of bounded depth ends in time.
-/

namespace MiniForth

namespace Frame

/-- A step that does not end the frame moves the cursor forward, by one cell in front of a call. -/
def Step.MovesOn (s : Session) : Step → Prop
  | .next t   => s.cursor < t.cursor
  | .call t _ => t.cursor = s.cursor + 1
  | .stop _ _ => True

theorem perform_movesOn {s t : Session} (hcursor : t.cursor = s.cursor + 1) (p : Primitive) :
    (perform t p).MovesOn s := by
  have hforth : s.cursor < t.cursor := by omega
  have hfurther : s.cursor < t.cursor + 1 := by omega
  fun_cases perform t p
  -- A skip, a number and `;` pass over one more cell.
  case case2 | case3 | case5 | case8 => exact hfurther
  case case6 | case10 => exact hforth
  all_goals trivial

theorem step_movesOn (s : Session) : (step s).MovesOn s := by
  rcases hup : s.upcoming? with _ | ⟨p⟩ | ⟨entry⟩
  · obtain ⟨f, t, hstep, -⟩ := step_of_upcoming?_eq_none hup
    rw [hstep]
    trivial
  · rw [step_of_primitive hup]
    exact perform_movesOn rfl p
  · rw [step_of_compiled hup]
    rfl

end Frame

namespace Session

/-- Behind its first `size` cells code memory holds nothing but `exit`. -/
structure Sealed (size : Nat) (s : Session) : Prop where
  standard : s.dictionary.Standard
  exits    : ∀ address cell, size ≤ address → s.code.get? address = some cell →
    cell = Cell.ofIndex Vocabulary.exitIndex

variable {size : Nat} {s : Session}

/-- A frame does not get further than that. -/
theorem Sealed.stops (hs : s.Sealed size) (hcursor : size ≤ s.cursor) :
    ∃ ending t, Frame.step s = .stop ending t := by
  rcases hcell : s.code.get? s.cursor with _ | cell
  · have hup : s.upcoming? = none := by rw [upcoming?, behaviorAt?, hcell, Option.bind_none]
    obtain ⟨f, t, hstep, -⟩ := Frame.step_of_upcoming?_eq_none hup
    exact ⟨_, t, hstep⟩
  · have hexit := hs.exits s.cursor cell hcursor hcell
    subst hexit
    have hup : s.upcoming? = some (.primitive .exit) :=
      behaviorAt?_of_vocabulary hs.standard (.refl _) (by decide) Vocabulary.get?_exitIndex hcell
    exact ⟨_, _, Frame.step_of_primitive hup⟩

theorem Sealed.step (hs : s.Sealed size) : (Frame.step s).session.Sealed size := by
  refine ⟨hs.standard.evolves (Frame.evolves_step s), ?_⟩
  intro address cell haddress hcell
  rcases Frame.get?_step s address with hsame | hexit
  · exact hs.exits address cell haddress (hsame ▸ hcell)
  · rw [hexit] at hcell
    exact (Option.some.inj hcell).symm

end Session

namespace Call

theorem sealed_turn {size : Nat} {c : Call} (hc : c.isOver = false) (hsealed : c.session.Sealed size) :
    c.turn.session.Sealed size := by
  obtain ⟨cursor, returns, hturn⟩ := session_turn hc
  rw [hturn]
  exact ⟨hsealed.step.standard, hsealed.step.exits⟩

/-! ## The weight of a call -/

/-- What a call that stands at `cursor` has still to do, in turns, if no call goes deeper than `depth`. A
cell of the frame at some depth costs as much as a whole frame that is one deeper, and one turn more. -/
def weight (size depth : Nat) : Nat → List Nat → Nat
  | _, []                   => 0
  | cursor, resume :: outer =>
    (size - cursor + 1) * (size + 2) ^ (depth - (outer.length + 1)) + weight size depth resume outer

/-- A cell less outweighs the frame that it calls. -/
theorem weight_call {size depth cursor entry resume : Nat} {outer : List Nat} (hcursor : cursor < size)
    (hdepth : outer.length + 2 ≤ depth) :
    weight size depth entry ((cursor + 1) :: resume :: outer) <
      weight size depth cursor (resume :: outer) := by
  let price := (size + 2) ^ (depth - (outer.length + 2))
  have hprice : 0 < price := Nat.pow_pos (Nat.zero_lt_succ _)
  have hexponent : depth - (outer.length + 1) = depth - (outer.length + 2) + 1 := by omega
  have hcaller : (size + 2) ^ (depth - (outer.length + 1)) = price * (size + 2) := by
    rw [hexponent, Nat.pow_succ]
  have hcells : size - cursor + 1 = (size - (cursor + 1) + 1) + 1 := by omega
  have hframe : (size - entry + 1) * price < price * (size + 2) := by
    rw [Nat.mul_comm price]
    exact Nat.mul_lt_mul_of_pos_right (by omega) hprice
  calc weight size depth entry ((cursor + 1) :: resume :: outer)
      = (size - entry + 1) * price +
          ((size - (cursor + 1) + 1) * (price * (size + 2)) + weight size depth resume outer) := by
        rw [weight, weight, hcaller]
        rfl
    _ < price * (size + 2) +
          ((size - (cursor + 1) + 1) * (price * (size + 2)) + weight size depth resume outer) :=
        Nat.add_lt_add_right hframe _
    _ = weight size depth cursor (resume :: outer) := by
        rw [weight, hcaller, hcells, Nat.add_mul (size - (cursor + 1) + 1) 1, Nat.one_mul]
        omega

/-- Every turn takes off weight. -/
theorem weight_turn {size depth : Nat} {c : Call} (hc : c.isOver = false)
    (hsealed : c.session.Sealed size)
    (hdepth : c.turn.isOver = false → c.turn.session.returns.length ≤ depth) :
    weight size depth c.turn.session.cursor c.turn.session.returns <
      weight size depth c.session.cursor c.session.returns := by
  obtain ⟨resume, outer, hframe⟩ := frame_of_running hc
  have hreturns : c.session.returns = resume :: outer := congrArg Session.returns hframe
  have hturn := turn_eq c.session c.failure resume outer
  rw [← hframe] at hturn
  have hturn : c.turn = _ := hturn
  have hprice : 0 < (size + 2) ^ (depth - (outer.length + 1)) := Nat.pow_pos (Nat.zero_lt_succ _)
  have hmoves := Frame.step_movesOn c.session
  -- A frame that goes on has cells of the first `size` in front of it.
  have hcursor : (∀ ending t, Frame.step c.session ≠ .stop ending t) → c.session.cursor < size := by
    intro hgoes
    apply Nat.lt_of_not_le
    intro hle
    obtain ⟨ending, t, hstep⟩ := hsealed.stops hle
    exact hgoes ending t hstep
  rw [hreturns]
  rcases hstep : Frame.step c.session with t | ⟨t, entry⟩ | ⟨⟨fault⟩ | f, t⟩
  · rw [hstep] at hturn hmoves hcursor
    have hmoves : c.session.cursor < t.cursor := hmoves
    have hlt := hcursor (by simp)
    rw [hturn]
    show weight size depth t.cursor (resume :: outer) < _
    rw [weight, weight]
    apply Nat.add_lt_add_right
    exact Nat.mul_lt_mul_of_pos_right (by omega) hprice
  · rw [hstep] at hturn hmoves hcursor
    have hmoves : t.cursor = c.session.cursor + 1 := hmoves
    have hlt := hcursor (by simp)
    rw [hturn] at hdepth ⊢
    show weight size depth entry (t.cursor :: resume :: outer) < _
    rw [hmoves]
    exact weight_call hlt (hdepth rfl)
  · rw [hstep] at hturn
    rw [hturn]
    show weight size depth resume outer < _
    rw [weight]
    exact Nat.lt_add_of_pos_left (Nat.mul_pos (Nat.succ_pos _) hprice)
  · rw [hstep] at hturn
    rw [hturn]
    show 0 < _
    rw [weight]
    exact Nat.add_pos_left (Nat.mul_pos (Nat.succ_pos _) hprice) _

end Call

namespace Session

variable {s : Session}

theorem weight_start (hs : s.returns = []) (size depth entry : Nat) :
    Call.weight size depth (Call.start s entry).session.cursor (Call.start s entry).session.returns ≤
      (size + 2) ^ (depth + 1) := by
  have hreturns : (Call.start s entry).session.returns = [s.cursor] := by simp [Call.start, enter, hs]
  have hprice : (size + 2) ^ (depth - 1) ≤ (size + 2) ^ depth :=
    Nat.pow_le_pow_right (Nat.zero_lt_succ _) (Nat.sub_le _ _)
  rw [hreturns, Call.weight, Call.weight, Nat.pow_succ, Nat.mul_comm]
  exact Nat.mul_le_mul hprice (by omega)

/-- A call that goes nowhere deeper than `depth` comes to its end, and the size of code memory says
within how many turns. -/
theorem Reachable.ends_of_depth (hs : s.Reachable) {entry depth : Nat}
    (hdepth : (Call.start s entry).Always fun u => u.returns.length ≤ depth) :
    ∃ n ≤ (s.code.size + 2) ^ (depth + 1), ∃ c, Call.Turns n (Call.start s entry) c ∧
      c.isOver = true ∧ s.run? n entry = some c.outcome := by
  have hstart : (Call.start s entry).session.Sealed s.code.size := by
    refine ⟨hs.standard, ?_⟩
    intro address cell haddress hcell
    -- Nothing has been written there yet.
    have hlt : address < s.code.size := (Array.getElem?_eq_some_iff.mp hcell).1
    exact absurd haddress (Nat.not_le_of_lt hlt)
  obtain ⟨n, hn, c, hturns, hc⟩ := Call.exists_end_of_measure
    (fun c => Call.weight s.code.size depth c.session.cursor c.session.returns)
    (fun c hc hnext hsealed => ⟨Call.sealed_turn hc hsealed, Call.weight_turn hc hsealed hnext⟩)
    hdepth hstart
  have hbound := weight_start hs.returns_eq_nil s.code.size depth entry
  exact ⟨n, Nat.le_trans hn hbound, c, hturns, hc,
    run?_eq_some_iff.mpr ⟨n, Nat.le_refl n, c, hturns, hc, rfl⟩⟩

/-- A session after `: a branch 7 branch 8 1 ; : b a a ;`. Code of `a` dispatches `:`, whose index is 7,
and `;`, whose index is 8, so `b` adds two words while it runs and writes an `exit` into `a`. -/
def restless : Session :=
  { Session.initial with
    code       := ⟨#[15, 2, 7, 15, 2, 8, 2, 1, 0, 17, 17, 0]⟩
    cursor     := 12
    dictionary := (Vocabulary.dictionary.add { name := "a", behavior := .compiled 0 }).add
      { name := "b", behavior := .compiled 9 }
    lines      := 1 }

theorem restless_ends_of_depth : restless.Reachable ∧
    ∃ n ≤ 14 ^ 3, ∃ c, Call.Turns n (Call.start restless 9) c ∧ c.isOver = true ∧
      restless.run? n 9 = some c.outcome := by
  have hprocess : process? 0 .initial ": a branch 7 branch 8 1 ; : b a a ;" = some ({}, restless) := by
    decide +kernel
  have hreachable : restless.Reachable := .line .initial hprocess
  have hchecks : (Call.start restless 9).checks (fun u => u.returns.length ≤ 2) 20 = true := by
    decide +kernel
  exact ⟨hreachable, hreachable.ends_of_depth (Call.always_of_checks hchecks)⟩

end Session

end MiniForth
