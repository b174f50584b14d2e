import MiniForth.Listing
import MiniForth.Proofs.TypingBack

/-!
# What a listing shows

The lines of a listing, one for each cell, and what they depend on.

A cell is listed in view of all cells in front of it, since any of them may make an operand of the next
one. Where the listing *stands* in front of a cell, it forgets about them: the cell and those behind it are
listed as if they were all there is.

* `lines_of_labels`: of the words only their names and behaviors matter.
* `getElem?_lines`: the lines are numbered in order.
* `splitOn_text`: the listing as a text has these lines.
* `StandsAt.next`, `StandsAt.next_operand`: where the listing stands behind a cell where it stands.
-/

namespace MiniForth

/-! ## Labels -/

namespace Dictionary

/-- What the listing of code takes from the words. -/
def labels (d : Dictionary) : List (String × Behavior) := d.words.map fun w => (w.name, w.behavior)

theorem labels_changeLast? (d : Dictionary) {f : Word → Option Word}
    (hf : ∀ w w', f w = some w' → w'.name = w.name ∧ w'.behavior = w.behavior) :
    ((d.changeLast? f).getD d).labels = d.labels := by
  rcases h : d.changeLast? f with _ | d'
  · rfl
  · obtain ⟨older, last, changed, hwords, hchanged, hwords'⟩ := words_of_changeLast? h
    obtain ⟨hname, hbehavior⟩ := hf _ _ hchanged
    rw [Option.getD_some, labels, labels, hwords, hwords', List.map_append, List.map_append,
      List.map_singleton, List.map_singleton, hname, hbehavior]

/-- Words with the same labels are found for the same cells. -/
theorem resolve?_of_labels {d d' : Dictionary} (h : d'.labels = d.labels) (cell : Cell) :
    (d'.resolve? cell).map (fun w => (w.name, w.behavior)) =
      (d.resolve? cell).map fun w => (w.name, w.behavior) := by
  rcases hindex : cell.index? with _ | index
  · rw [resolve?, resolve?, hindex]
    rfl
  · rw [resolve?, resolve?, hindex, Option.bind_some, Option.bind_some, ← getElem?_words,
      ← getElem?_words, ← List.getElem?_map, ← List.getElem?_map]
    exact congrArg (·[index]?) h

end Dictionary

theorem Session.labels_hideLast (s : Session) : s.hideLast.dictionary.labels = s.dictionary.labels := by
  apply s.dictionary.labels_changeLast?
  rintro w _ ⟨⟩
  exact ⟨rfl, rfl⟩

theorem Session.labels_revealLast (s : Session) :
    s.revealLast.dictionary.labels = s.dictionary.labels := by
  apply s.dictionary.labels_changeLast?
  rintro w _ ⟨⟩
  exact ⟨rfl, rfl⟩

namespace Listing

variable {d d' : Dictionary} {cells : List Cell} {cell : Cell} {i : Nat}

theorem ofCell_of_resolve? {word : Word} (h : d.resolve? cell = some word) :
    Role.ofCell d cell = .reference word := by
  rw [Role.ofCell, h]

theorem ofCell_of_resolve?_eq_none (h : d.resolve? cell = none) : Role.ofCell d cell = .unknown := by
  rw [Role.ofCell, h]

/-- Only labels matter for what is shown of a cell, and for whether an operand is expected behind it. -/
theorem ofCell_of_labels (h : d'.labels = d.labels) (cell : Cell) :
    (Role.ofCell d' cell).text = (Role.ofCell d cell).text ∧
      (Role.ofCell d' cell).takesOperand = (Role.ofCell d cell).takesOperand := by
  have hsame := Dictionary.resolve?_of_labels h cell
  rcases hword : d.resolve? cell with _ | word
  · rw [hword, Option.map_none, Option.map_eq_none_iff] at hsame
    rw [ofCell_of_resolve?_eq_none hword, ofCell_of_resolve?_eq_none hsame]
    exact ⟨rfl, rfl⟩
  · rw [hword, Option.map_some] at hsame
    obtain ⟨word', hword', heq⟩ := Option.map_eq_some_iff.mp hsame
    obtain ⟨hname, hbehavior⟩ := Prod.mk.inj heq
    rw [ofCell_of_resolve? hword, ofCell_of_resolve? hword', Role.text, Role.text, Role.takesOperand,
      Role.takesOperand, hname, hbehavior]
    exact ⟨rfl, rfl⟩

theorem takesOperand_of_labels (h : d'.labels = d.labels) {word : Word}
    (hword : d'.resolve? cell = some word) :
    (Role.ofCell d cell).takesOperand = decide (word.behavior = .primitive .literal) := by
  rw [← (ofCell_of_labels h cell).2, ofCell_of_resolve? hword]
  rfl

theorem linesFrom_of_labels (h : d'.labels = d.labels) (first : Nat) (operandFirst : Bool)
    (cells : List Cell) : linesFrom first (cells.zip (roles d' operandFirst cells)) =
      linesFrom first (cells.zip (roles d operandFirst cells)) := by
  induction cells generalizing first operandFirst with
  | nil => rfl
  | cons cell cells ih =>
    obtain ⟨htext, htakes⟩ := ofCell_of_labels h cell
    cases operandFirst with
    | true => exact congrArg (line first cell .operand :: ·) (ih (first + 1) false)
    | false =>
      have hrest := ih (first + 1) (Role.ofCell d cell).takesOperand
      rw [← htakes] at hrest
      show line first cell (Role.ofCell d' cell) ::
        linesFrom (first + 1) (cells.zip (roles d' (Role.ofCell d' cell).takesOperand cells)) = _
      rw [hrest, line, htext, htakes]
      rfl

theorem lines_of_labels (h : d'.labels = d.labels) (cells : List Cell) : lines d' cells = lines d cells :=
  linesFrom_of_labels h 0 false cells

theorem getElem?_linesFrom (first : Nat) (cells : List (Cell × Role)) (i : Nat) :
    (linesFrom first cells)[i]? = cells[i]?.map fun c => line (first + i) c.1 c.2 := by
  induction cells generalizing first i with
  | nil => rfl
  | cons c cells ih =>
    cases i with
    | zero => rfl
    | succ i =>
      rw [linesFrom, List.getElem?_cons_succ, List.getElem?_cons_succ, ih, Nat.add_right_comm,
        Nat.add_assoc]

/-- The lines are numbered in order. -/
theorem getElem?_lines {role : Role} (hcell : cells[i]? = some cell)
    (hrole : (roles d false cells)[i]? = some role) : (lines d cells)[i]? = some (line i cell role) := by
  have hboth : (cells.zip (roles d false cells))[i]? = some (cell, role) :=
    List.getElem?_zip_eq_some.mpr ⟨hcell, hrole⟩
  rw [lines, getElem?_linesFrom, hboth, Option.map_some, Nat.zero_add]

theorem exists_role (d : Dictionary) (hcell : cells[i]? = some cell) :
    ∃ role, (lines d cells)[i]? = some (line i cell role) := by
  have hlt : i < (roles d false cells).length := by
    rw [length_roles]
    exact (List.getElem?_eq_some_iff.mp hcell).1
  exact ⟨_, getElem?_lines hcell (List.getElem?_eq_getElem hlt)⟩

/-! ## Listings as texts -/

theorem newline_not_mem_alignRight {width : Nat} {text : String} (h : '\n' ∉ text.toList) :
    '\n' ∉ (alignRight width text).toList := by
  simp [alignRight, List.leftpad, h]

theorem newline_not_mem_line {address : Nat} {role : Role} (h : '\n' ∉ role.text.toList) :
    '\n' ∉ (line address cell role).toList := by
  have hnewline : Text.isSeparator '\n' = true := by decide
  have haddress : '\n' ∉ (Decimal.ofNat address).toList := by
    intro hmem
    rw [Decimal.isSeparator_of_mem hmem] at hnewline
    cases hnewline
  have hcell : '\n' ∉ cell.text.toList := by
    intro hmem
    rw [cell.isWord_text.2 _ hmem] at hnewline
    cases hnewline
  simp [line, newline_not_mem_alignRight haddress, newline_not_mem_alignRight hcell, h]

theorem newline_not_mem_text_of_roles (hnames : ∀ word ∈ d.words, '\n' ∉ word.name.toList)
    (operandFirst : Bool) (cells : List Cell) :
    ∀ role ∈ roles d operandFirst cells, '\n' ∉ role.text.toList := by
  induction cells generalizing operandFirst with
  | nil => simp [roles]
  | cons cell cells ih =>
    intro role hrole
    rcases List.mem_cons.mp hrole with rfl | hrole
    · cases operandFirst with
      | true =>
        show '\n' ∉ Role.operand.text.toList
        decide
      | false =>
        show '\n' ∉ (Role.ofCell d cell).text.toList
        rcases hword : d.resolve? cell with _ | word
        · rw [ofCell_of_resolve?_eq_none hword]
          decide
        · obtain ⟨index, -, hget⟩ := Option.bind_eq_some_iff.mp hword
          have hmem : word ∈ d.words := List.mem_of_getElem? (d.getElem?_words index ▸ hget)
          rw [ofCell_of_resolve? hword, Role.text]
          split
          · decide
          · exact hnames word hmem
    · exact ih _ role hrole

theorem exists_of_mem_linesFrom {first : Nat} {cells : List (Cell × Role)} {text : String}
    (h : text ∈ linesFrom first cells) : ∃ address, ∃ c ∈ cells, text = line address c.1 c.2 := by
  induction cells generalizing first with
  | nil => cases h
  | cons c cells ih =>
    rcases List.mem_cons.mp h with rfl | h
    · exact ⟨first, c, List.mem_cons_self, rfl⟩
    · obtain ⟨address, c', hc', rfl⟩ := ih h
      exact ⟨address, c', List.mem_cons_of_mem c hc', rfl⟩

theorem toList_text (d : Dictionary) (cells : List Cell) : (text d cells).toList =
    ['\n'].intercalate ((lines d cells).map String.toList ++ [[]]) := by
  rw [text, String.toList_join]
  induction lines d cells with
  | nil => rfl
  | cons line lines ih =>
    rw [List.map_cons, List.flatMap_cons, ih, List.map_cons, List.cons_append,
      List.intercalate_cons_of_ne_nil (by simp), String.toList_append]
    rfl

/-- Between the line ends of a listing there are its lines, unless a name has a line end in it. -/
theorem splitOn_text (hnames : ∀ word ∈ d.words, '\n' ∉ word.name.toList) (cells : List Cell) :
    (text d cells).toList.splitOn '\n' = (lines d cells).map String.toList ++ [[]] := by
  rw [toList_text]
  apply List.splitOn_intercalate
  · intro l hl
    rcases List.mem_append.mp hl with hl | hl
    · obtain ⟨text, htext, rfl⟩ := List.mem_map.mp hl
      obtain ⟨address, c, hc, rfl⟩ := exists_of_mem_linesFrom htext
      exact newline_not_mem_line
        (newline_not_mem_text_of_roles hnames false cells _ (List.of_mem_zip hc).2)
    · rw [List.mem_singleton.mp hl]
      exact List.not_mem_nil
  · simp

/-! ## Where a listing stands -/

/-- The cell at `i` is listed as if it were the first one, so it is not taken for an operand. -/
def StandsAt (d : Dictionary) (cells : List Cell) (i : Nat) : Prop :=
  (roles d false cells).drop i = roles d false (cells.drop i)

theorem standsAt_zero (d : Dictionary) (cells : List Cell) : StandsAt d cells 0 := rfl

theorem StandsAt.drop (h : StandsAt d cells i) (hcell : cells[i]? = some cell) :
    (roles d false cells).drop i =
      Role.ofCell d cell :: roles d (Role.ofCell d cell).takesOperand (cells.drop (i + 1)) := by
  obtain ⟨hlt, rfl⟩ := List.getElem?_eq_some_iff.mp hcell
  rw [h, List.drop_eq_getElem_cons hlt]
  rfl

theorem StandsAt.drop_succ (h : StandsAt d cells i) (hcell : cells[i]? = some cell) :
    (roles d false cells).drop (i + 1) =
      roles d (Role.ofCell d cell).takesOperand (cells.drop (i + 1)) := by
  rw [← List.tail_drop, h.drop hcell, List.tail_cons]

theorem StandsAt.role (h : StandsAt d cells i) (hcell : cells[i]? = some cell) :
    (roles d false cells)[i]? = some (Role.ofCell d cell) := by
  rw [← List.head?_drop, h.drop hcell, List.head?_cons]

/-- Behind a cell that takes no operand the listing stands in front of the next one. -/
theorem StandsAt.next (h : StandsAt d cells i) (hcell : cells[i]? = some cell)
    (htakes : (Role.ofCell d cell).takesOperand = false) : StandsAt d cells (i + 1) := by
  rw [StandsAt, h.drop_succ hcell, htakes]

theorem StandsAt.drop_operand (h : StandsAt d cells i) (hcell : cells[i]? = some cell)
    (htakes : (Role.ofCell d cell).takesOperand = true) {value : Cell}
    (hvalue : cells[i + 1]? = some value) :
    (roles d false cells).drop (i + 1) = .operand :: roles d false (cells.drop (i + 2)) := by
  obtain ⟨hlt, rfl⟩ := List.getElem?_eq_some_iff.mp hvalue
  rw [h.drop_succ hcell, htakes, List.drop_eq_getElem_cons hlt]
  rfl

/-- Behind one that takes an operand there is the operand. -/
theorem StandsAt.operand (h : StandsAt d cells i) (hcell : cells[i]? = some cell)
    (htakes : (Role.ofCell d cell).takesOperand = true) {value : Cell}
    (hvalue : cells[i + 1]? = some value) : (roles d false cells)[i + 1]? = some .operand := by
  rw [← List.head?_drop, h.drop_operand hcell htakes hvalue, List.head?_cons]

theorem StandsAt.next_operand (h : StandsAt d cells i) (hcell : cells[i]? = some cell)
    (htakes : (Role.ofCell d cell).takesOperand = true) {value : Cell}
    (hvalue : cells[i + 1]? = some value) : StandsAt d cells (i + 2) := by
  rw [StandsAt, ← List.tail_drop, h.drop_operand hcell htakes hvalue, List.tail_cons]

end Listing

end MiniForth
