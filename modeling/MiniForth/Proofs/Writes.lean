import MiniForth.Proofs.Compiling
import MiniForth.Proofs.Mirror

/-!
# What running code writes

Code that runs can change code memory in one way. `;` compiles an `exit`, and since the cursor is then
the one of execution, the `exit` goes to the cell behind the one that was dispatched.

* `code_step`, `code_turn`: the one write there is.
* `get?_step`: so a cell stays what it is, or it becomes an `exit`.
* `Session.SparesCode`: when even that changes nothing.
-/

namespace MiniForth

namespace Frame

/-- No primitive but `;` writes to code memory. -/
theorem code_perform (s : Session) (p : Primitive) : (perform s p).session.code =
    if p = .semicolon then s.code.poke s.cursor (Cell.ofIndex Vocabulary.exitIndex) else s.code := by
  obtain ⟨stack, cursor, hsession⟩ := session_perform s p
  rw [hsession]
  generalize h : Outcome.session (p.perform s) = t
  cases Primitive.leaves_of_perform h with
  | nothing hsemi => rw [if_neg hsemi]
  | computes hdefines =>
    rw [if_neg (Primitive.ne_semicolon_of_defines hdefines)]
    rfl
  | hide | reveal | colon | semicolon => rfl

theorem code_step (s : Session) : (step s).session.code =
    if s.upcoming? = some (.primitive .semicolon) then
      s.code.poke (s.cursor + 1) (Cell.ofIndex Vocabulary.exitIndex)
    else s.code := by
  rcases hup : s.upcoming? with _ | ⟨p⟩ | ⟨entry⟩
  · obtain ⟨f, t, hstep, rfl | rfl⟩ := step_of_upcoming?_eq_none hup
    · rw [hstep]
      rfl
    · rw [hstep]
      rfl
  · rw [step_of_primitive hup, code_perform]
    simp only [Option.some.injEq, Behavior.primitive.injEq]
    rfl
  · rw [step_of_compiled hup]
    rfl

/-- Code memory only grows. -/
theorem size_step (s : Session) : s.code.size ≤ (step s).session.code.size := by
  rw [code_step]
  split
  · rw [Stack.size_poke]
    exact Nat.le_max_left _ _
  · exact Nat.le_refl _

/-- What a cell is turned into is an `exit`. -/
theorem get?_step (s : Session) (address : Nat) :
    (step s).session.code.get? address = s.code.get? address ∨
      (step s).session.code.get? address = some (Cell.ofIndex Vocabulary.exitIndex) := by
  rw [code_step]
  split
  · rw [Stack.get?_poke]
    split
    · exact .inr rfl
    · split
      -- A gap is filled with zeros, and zero is the index of `exit`.
      · exact .inr rfl
      · exact .inl rfl
  · exact .inl rfl

end Frame

theorem Call.code_turn {c : Call} (hc : c.isOver = false) :
    c.turn.session.code = (Frame.step c.session).session.code := by
  obtain ⟨cursor, returns, hturn⟩ := Call.session_turn hc
  rw [hturn]

namespace Session

variable {s : Session}

/-- If the next dispatch carries out `;`, the cell that this writes is an `exit` already. -/
def SparesCode (s : Session) : Prop :=
  s.upcoming? = some (.primitive .semicolon) →
    s.code.get? (s.cursor + 1) = some (Cell.ofIndex Vocabulary.exitIndex)

instance (s : Session) : Decidable s.SparesCode := by
  unfold SparesCode
  infer_instance

theorem SparesCode.code_step (h : s.SparesCode) : (Frame.step s).session.code = s.code := by
  rw [Frame.code_step]
  split
  · next hup => exact Stack.poke_of_get? (h hup)
  · rfl

end Session

/-! ## Whole calls -/

namespace Session

variable {s : Session} {fuel entry : Nat} {o : Outcome Unit}

/-- A call whose code spares code memory leaves it alone. -/
theorem code_of_run? (hspares : (Call.start s entry).Always SparesCode)
    (h : s.run? fuel entry = some o) : (Outcome.session o).code = s.code := by
  obtain ⟨n, -, c, hturns, -, rfl⟩ := run?_eq_some_iff.mp h
  rw [Call.session_outcome]
  refine hspares.invariant (I := fun c => c.session.code = s.code) ?_ hturns rfl
  intro d hd hnext hcode
  rw [Call.code_turn hd, hnext.code_step, hcode]

/-- Any call lets code memory grow, and turns cells into nothing but `exit`. -/
theorem get?_of_run? (h : s.run? fuel entry = some o) :
    s.code.size ≤ (Outcome.session o).code.size ∧ ∀ address,
      (Outcome.session o).code.get? address = s.code.get? address ∨
        (Outcome.session o).code.get? address = some (Cell.ofIndex Vocabulary.exitIndex) := by
  obtain ⟨n, -, c, hturns, -, rfl⟩ := run?_eq_some_iff.mp h
  rw [Call.session_outcome]
  let I (d : Call) : Prop := s.code.size ≤ d.session.code.size ∧ ∀ address,
    d.session.code.get? address = s.code.get? address ∨
      d.session.code.get? address = some (Cell.ofIndex Vocabulary.exitIndex)
  have hstart : I (Call.start s entry) := ⟨Nat.le_refl _, fun _ => .inl rfl⟩
  refine hturns.invariant (I := I) ?_ hstart
  rintro d hd ⟨hsize, hcells⟩
  show _ ≤ d.turn.session.code.size ∧ ∀ address, d.turn.session.code.get? address = _ ∨ _
  rw [Call.code_turn hd]
  refine ⟨Nat.le_trans hsize (Frame.size_step _), ?_⟩
  intro address
  rcases Frame.get?_step d.session address with hsame | hexit
  · rw [hsame]
    exact hcells address
  · exact .inr hexit

end Session

end MiniForth
