import MiniForth.Proofs.Effect

/-!
# Stacks as arrays with a top

One structure is the parameter stack, which is used from its top, and code memory, which is written by
address. `Stack.Operation` has both uses of it, in any order, and `Stack.Answer` what comes back.

* `get?_push`, `size_push`: a push adds one address and leaves the others alone.
* `get?_poke`, `size_poke` (beside the stack itself): so does a write, which may also leave a gap.
* `pop_eq_error_iff`: taking a cell off fails on the empty stack only.
* `carryOutAll_push_pop`: cells that are put on top come off again, the last one first.
-/

namespace MiniForth

namespace Stack

variable {α : Type}

/-! ## Reading -/

theorem get?_eq_none_of_size_le {s : Stack α} {address : Nat} (h : s.size ≤ address) :
    s.get? address = none := by
  rw [← getElem?_toList, List.getElem?_eq_none_iff, length_toList]
  exact h

@[simp] theorem size_push (s : Stack α) (value : α) : (s.push value).size = s.size + 1 := by
  rw [← length_toList, toList_push, List.length_append, length_toList, List.length_singleton]

theorem get?_push (s : Stack α) (value : α) (address : Nat) :
    (s.push value).get? address = if address = s.size then some value else s.get? address := by
  rw [← getElem?_toList, toList_push, List.getElem?_append, length_toList, getElem?_toList]
  split
  · next hlt => rw [if_neg (Nat.ne_of_lt hlt)]
  · next hge =>
    split
    · next heq => rw [heq, Nat.sub_self, List.getElem?_cons_zero]
    · next hne =>
      rw [get?_eq_none_of_size_le (Nat.not_lt.mp hge), List.getElem?_eq_none_iff, List.length_singleton]
      omega

/-! ## Taking the topmost cell off -/

@[simp] theorem pop_push (s : Stack α) (value : α) : (s.push value).pop = .ok value s := by
  rw [pop, pop?_push]

/-- Nothing else makes a stack fail than that it is empty, and the failure changes nothing. -/
theorem pop_eq_error_iff {s rest : Stack α} {failure : Failure} :
    s.pop = .error failure rest ↔
      s.size = 0 ∧ failure = .ofCause none .emptyStack ∧ rest = s := by
  rw [pop]
  rcases h : s.pop? with _ | ⟨value, rest'⟩
  · simp [size_of_pop?_eq_none h, eq_comm]
  · simp [size_of_pop? h]

/-! ## Histories -/

/-- What can be done with a stack. -/
inductive Operation (α : Type) where
  | push (value : α)
  | pop
  | poke (address : Nat) (value : α)
  | clear

/-- What comes back from an operation. -/
inductive Answer (α : Type) where
  /-- The address that a cell was put at. -/
  | address (address : Nat)
  /-- The cell that was taken off. -/
  | value (value : α)
  | failure (failure : Failure)
  | done

/-- The answer to an operation, and the stack after it. -/
def Operation.carryOut [Inhabited α] (s : Stack α) : Operation α → Answer α × Stack α
  | push value         =>
    let (address, pushed) := s.place value
    (.address address, pushed)
  | pop                =>
    match s.pop with
    | .ok value rest      => (.value value, rest)
    | .error failure rest => (.failure failure, rest)
  | poke address value => (.done, s.poke address value)
  | clear              => (.done, .empty)

/-- Carries out operations one after the other. -/
def carryOutAll [Inhabited α] : Stack α → List (Operation α) → List (Answer α) × Stack α
  | s, []                      => ([], s)
  | s, operation :: operations =>
    let (answer, next) := operation.carryOut s
    let (answers, last) := carryOutAll next operations
    (answer :: answers, last)

variable [Inhabited α]

theorem carryOutAll_cons (s : Stack α) (operation : Operation α) (operations : List (Operation α)) :
    s.carryOutAll (operation :: operations) =
      ((operation.carryOut s).1 :: ((operation.carryOut s).2.carryOutAll operations).1,
       ((operation.carryOut s).2.carryOutAll operations).2) := rfl

theorem carryOutAll_append (s : Stack α) (first second : List (Operation α)) :
    s.carryOutAll (first ++ second) =
      ((s.carryOutAll first).1 ++ ((s.carryOutAll first).2.carryOutAll second).1,
       ((s.carryOutAll first).2.carryOutAll second).2) := by
  induction first generalizing s with
  | nil => rfl
  | cons operation first ih => simp only [List.cons_append, carryOutAll_cons, ih]

theorem carryOut_push (s : Stack α) (value : α) :
    (Operation.push value).carryOut s = (.address s.size, s.push value) := by
  rw [Operation.carryOut, place, size_push, Nat.add_sub_cancel]

theorem carryOut_pop_push (s : Stack α) (value : α) :
    Operation.pop.carryOut (s.push value) = (.value value, s) := by
  rw [Operation.carryOut, pop_push]

theorem carryOut_pop_eq_failure_iff {s rest : Stack α} {failure : Failure} :
    Operation.pop.carryOut s = (.failure failure, rest) ↔
      s.size = 0 ∧ failure = .ofCause none .emptyStack ∧ rest = s := by
  rw [← pop_eq_error_iff, Operation.carryOut]
  rcases s.pop with ⟨value, t⟩ | ⟨failure', t⟩ <;> simp

/-- What happens above a cell is over when it comes off: by induction on the cells above it. -/
theorem carryOutAll_push_pop (s : Stack α) (values : List α) :
    s.carryOutAll (values.map .push ++ List.replicate values.length .pop) =
      ((List.range' s.size values.length).map .address ++ values.reverse.map .value, s) := by
  induction values generalizing s with
  | nil => rfl
  | cons value values ih =>
    rw [List.map_cons, List.length_cons, List.replicate_succ', ← List.append_assoc, List.cons_append,
      List.cons_append, carryOutAll_cons, carryOut_push, carryOutAll_append, ih, size_push]
    simp [carryOutAll, carryOut_pop_push, List.range'_succ]

/-- A stack is an array with a top, whatever has been done with it before. A write makes room up to its
address and changes nothing else. A push adds an address, and taking the cell off undoes it. Taking a cell
off fails on the empty stack, which it leaves as it is, and on no other. What is put on top comes off in the
reverse order. -/
theorem array_with_top (history : List (Operation α)) (address : Nat) (value : α) :
    let s := (empty.carryOutAll history).2
    let written := ((Operation.poke address value).carryOut s).2
    let pushed := ((Operation.push value).carryOut s).2
    (written.size = max s.size (address + 1) ∧ written.get? address = some value ∧
      (∀ other < s.size, other ≠ address → written.get? other = s.get? other) ∧
      (∀ other, s.size ≤ other → other < address → written.get? other = some default) ∧
      ∀ other, written.size ≤ other → written.get? other = none) ∧
    (((Operation.push value).carryOut s).1 = .address s.size ∧ pushed.get? s.size = some value ∧
      (∀ other, other ≠ s.size → pushed.get? other = s.get? other) ∧
      Operation.pop.carryOut pushed = (.value value, s)) ∧
    ((∃ failure rest, Operation.pop.carryOut s = (.failure failure, rest)) ↔ s.size = 0) ∧
    (∀ failure rest, Operation.pop.carryOut s = (.failure failure, rest) →
      failure.kind = .stackUnderflow ∧ rest = s) ∧
    ∀ values, s.carryOutAll (List.map .push values ++ List.replicate values.length .pop) =
      ((List.range' s.size values.length).map .address ++ values.reverse.map .value, s) := by
  intro s written pushed
  have hread : ∀ other, written.get? other = if other = address then some value
      else if s.size ≤ other ∧ other < address then some default else s.get? other :=
    s.get?_poke address value
  have hpush : (Operation.push value).carryOut s = (.address s.size, s.push value) :=
    s.carryOut_push value
  refine ⟨⟨s.size_poke address value, ?_, ?_, ?_, ?_⟩, ⟨?_, ?_, ?_, ?_⟩, ?_, ?_, ?_⟩
  · rw [hread, if_pos rfl]
  · intro other hlt hne
    rw [hread, if_neg hne, if_neg (fun h => Nat.not_le.mpr hlt h.1)]
  · intro other hge hlt
    rw [hread, if_neg (Nat.ne_of_lt hlt), if_pos ⟨hge, hlt⟩]
  · intro other hge
    exact get?_eq_none_of_size_le hge
  · rw [hpush]
  · rw [show pushed = s.push value from congrArg Prod.snd hpush, get?_push, if_pos rfl]
  · intro other hne
    rw [show pushed = s.push value from congrArg Prod.snd hpush, get?_push, if_neg hne]
  · exact s.carryOut_pop_push value
  · constructor
    · rintro ⟨failure, rest, h⟩
      exact (carryOut_pop_eq_failure_iff.mp h).1
    · intro h
      exact ⟨_, _, carryOut_pop_eq_failure_iff.mpr ⟨h, rfl, rfl⟩⟩
  · intro failure rest h
    obtain ⟨-, rfl, rfl⟩ := carryOut_pop_eq_failure_iff.mp h
    exact ⟨rfl, rfl⟩
  · exact s.carryOutAll_push_pop

end Stack

end MiniForth
