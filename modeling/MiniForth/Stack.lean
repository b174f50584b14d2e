import MiniForth.Failure

/-!
# Addressable stacks

A `Stack` holds cells one above the other. It is used from its top, by `push` and `pop?`, and by
address, counted from 0 at the bottom, by `get?` and `poke`. The parameter stack of a session is one,
and so is its code memory, whose cells are written through addresses only.

Every lemma here is stated through `toList`, the cells from the bottom up.
-/

namespace MiniForth

/-- A stack whose cells can be addressed. -/
structure Stack (α : Type) where
  /-- The cells, the bottom one first. -/
  cells : Array α := #[]
  deriving DecidableEq, Inhabited, Repr

namespace Stack

variable {α : Type}

/-- The stack without cells. -/
def empty : Stack α := {}

/-- The cells from the bottom up. -/
def toList (s : Stack α) : List α := s.cells.toList

/-- The number of cells, which is also the first address without one. -/
def size (s : Stack α) : Nat := s.cells.size

/-- Does the stack hold no cell? -/
def isEmpty (s : Stack α) : Bool := s.cells.isEmpty

/-- The cell at an address. -/
def get? (s : Stack α) (address : Nat) : Option α := s.cells[address]?

/-- The topmost cell. -/
def top? (s : Stack α) : Option α := s.cells.back?

/-- Puts a cell on top. Its address is the former size. -/
def push (s : Stack α) (value : α) : Stack α := ⟨s.cells.push value⟩

/-- Puts a cell on top, and answers with its address. -/
def place (s : Stack α) (value : α) : Nat × Stack α := ((s.push value).size - 1, s.push value)

/-- Takes the topmost cell off. -/
def pop? (s : Stack α) : Option (α × Stack α) :=
  s.top?.map fun value => (value, ⟨s.cells.pop⟩)

/-- Takes the topmost cell off. On an empty stack this is a failure, and nothing changes. -/
def pop : EStateM Failure (Stack α) α := fun s =>
  match s.pop? with
  | some (value, rest) => .ok value rest
  | none               => .error (.ofCause none .emptyStack) s

/-- Writes the cell at an address. Above the top the stack grows up to that address, and the cells
between take the default value. -/
def poke [Inhabited α] (s : Stack α) (address : Nat) (value : α) : Stack α :=
  if h : address < s.cells.size then ⟨s.cells.set address value h⟩
  else ⟨(s.cells ++ Array.replicate (address - s.cells.size) default).push value⟩

/-! ## The operations on the list of cells -/

@[simp] theorem toList_empty : (empty : Stack α).toList = [] := rfl

@[simp] theorem length_toList (s : Stack α) : s.toList.length = s.size := rfl

@[simp] theorem getElem?_toList (s : Stack α) (address : Nat) :
    s.toList[address]? = s.get? address := by
  simp [toList, get?]

theorem lt_size_of_get? {s : Stack α} {address : Nat} {value : α} (h : s.get? address = some value) :
    address < s.size := (Array.getElem?_eq_some_iff.mp h).1

@[simp] theorem isEmpty_toList (s : Stack α) : s.toList.isEmpty = s.isEmpty := by
  simp [toList, isEmpty]

@[simp] theorem toList_push (s : Stack α) (value : α) :
    (s.push value).toList = s.toList ++ [value] := by
  simp [toList, push]

@[simp] theorem pop?_push (s : Stack α) (value : α) : (s.push value).pop? = some (value, s) := by
  simp [pop?, push, top?]

theorem pop?_eq_none_iff (s : Stack α) : s.pop? = none ↔ s.toList = [] := by
  simp [pop?, top?, toList]

theorem toList_of_pop? {s rest : Stack α} {value : α} (h : s.pop? = some (value, rest)) :
    s.toList = rest.toList ++ [value] := by
  obtain ⟨⟨cells⟩⟩ := s
  obtain ⟨v, hv, h⟩ := Option.map_eq_some_iff.mp h
  cases h
  obtain ⟨ys, rfl⟩ := List.getLast?_eq_some_iff.mp (by simpa [top?] using hv)
  simp [toList]

theorem toList_poke_of_lt [Inhabited α] {s : Stack α} {address : Nat} (h : address < s.size)
    (value : α) : (s.poke address value).toList = s.toList.set address value := by
  have h : address < s.cells.size := h
  simp [poke, toList, h]

theorem toList_poke_of_ge [Inhabited α] {s : Stack α} {address : Nat} (h : s.size ≤ address)
    (value : α) : (s.poke address value).toList =
      s.toList ++ List.replicate (address - s.size) default ++ [value] := by
  have h : ¬ address < s.cells.size := Nat.not_lt.mpr h
  simp [poke, toList, size, h]

theorem size_poke [Inhabited α] (s : Stack α) (address : Nat) (value : α) :
    (s.poke address value).size = max s.size (address + 1) := by
  rcases Nat.lt_or_ge address s.size with h | h
  · rw [← length_toList, toList_poke_of_lt h, List.length_set, length_toList]
    omega
  · rw [← length_toList, toList_poke_of_ge h]
    simp
    omega

/-- What is read after a write: the value, a default in the gap below it, or what was there. -/
theorem get?_poke [Inhabited α] (s : Stack α) (address : Nat) (value : α) (other : Nat) :
    (s.poke address value).get? other =
      if other = address then some value
      else if s.size ≤ other ∧ other < address then some default
      else s.get? other := by
  rcases Nat.lt_or_ge address s.size with h | h
  · rw [← getElem?_toList, toList_poke_of_lt h, ← getElem?_toList]
    have hlt : address < s.toList.length := h
    grind
  · rw [← getElem?_toList, toList_poke_of_ge h, ← getElem?_toList]
    have hlength : s.toList.length = s.size := s.length_toList
    grind

/-- To write what is there already changes nothing. -/
theorem poke_of_get? [Inhabited α] {s : Stack α} {address : Nat} {value : α}
    (h : s.get? address = some value) : s.poke address value = s := by
  obtain ⟨hlt, hvalue⟩ := Array.getElem?_eq_some_iff.mp h
  rw [poke, dif_pos hlt, ← hvalue, Array.set_getElem_self]

end Stack

end MiniForth
