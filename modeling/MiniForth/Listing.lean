import MiniForth.Dictionary

/-!
# Listings of code

Code memory as text, one line a cell: its address, the cell, and what the cell stands for. Nothing in
memory marks the operand of a literal. A cell is taken for one when the cell in front of it refers to
the primitive that pushes literals and is not an operand itself.
-/

namespace MiniForth.Listing

/-- What a cell of code stands for. -/
inductive Role where
  /-- A number that the cell in front pushes. -/
  | operand
  /-- A reference to a word. -/
  | reference (word : Word)
  /-- Neither of the two. -/
  | unknown
  deriving DecidableEq, Repr

/-- The role in words. -/
def Role.text : Role → String
  | operand        => "literal"
  | reference word => if word.name.isEmpty then "<unnamed>" else word.name
  | unknown        => "???"

/-- The role of a cell that is no operand. -/
def Role.ofCell (d : Dictionary) (cell : Cell) : Role :=
  match d.resolve? cell with
  | some word => reference word
  | none      => unknown

/-- Does the next cell hold an operand? -/
def Role.takesOperand : Role → Bool
  | reference word => word.behavior = .primitive .literal
  | _              => false

/-- The roles of cells in a row; `operandFirst` tells whether the first one is an operand. -/
def roles (d : Dictionary) (operandFirst : Bool) : List Cell → List Role
  | []            => []
  | cell :: cells =>
    let role := if operandFirst then .operand else Role.ofCell d cell
    role :: roles d role.takesOperand cells

/-- A text moved to the right end of a column. -/
def alignRight (width : Nat) (text : String) : String :=
  String.ofList (text.toList.leftpad width ' ')

/-- The line for a cell. -/
def line (address : Nat) (cell : Cell) (role : Role) : String :=
  alignRight 4 (Decimal.ofNat address) ++ ": " ++ alignRight 6 cell.text ++ "  " ++ role.text

/-- The lines for cells in a row, whose addresses start at `first`. -/
def linesFrom (first : Nat) : List (Cell × Role) → List String
  | []                    => []
  | (cell, role) :: cells => line first cell role :: linesFrom (first + 1) cells

/-- The listing of cells in a row, with addresses from 0 on. -/
def lines (d : Dictionary) (cells : List Cell) : List String :=
  linesFrom 0 (cells.zip (roles d false cells))

/-- The listing as text, in which each line is ended. -/
def text (d : Dictionary) (cells : List Cell) : String :=
  String.join ((lines d cells).map (· ++ "\n"))

/-! ## One line a cell -/

@[simp] theorem length_roles (d : Dictionary) (operandFirst : Bool) (cells : List Cell) :
    (roles d operandFirst cells).length = cells.length := by
  induction cells generalizing operandFirst with
  | nil => rfl
  | cons cell cells ih => simp [roles, ih]

@[simp] theorem length_linesFrom (first : Nat) (cells : List (Cell × Role)) :
    (linesFrom first cells).length = cells.length := by
  induction cells generalizing first with
  | nil => rfl
  | cons cell cells ih => simp [linesFrom, ih]

@[simp] theorem length_lines (d : Dictionary) (cells : List Cell) :
    (lines d cells).length = cells.length := by
  simp [lines]

end MiniForth.Listing
