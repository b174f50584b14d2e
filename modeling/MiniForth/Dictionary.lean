import MiniForth.Word

/-!
# Dictionaries

All words of a session, oldest first. A word keeps its index for ever, since nothing is removed:
compiled code refers to words by index, so a later word of the same name does not change what it
calls. Tokens are looked up by name, and there the newest visible word wins.
-/

namespace MiniForth

/-- The words of a session; the index of a word is its position. -/
structure Dictionary where
  /-- The words, the oldest first. -/
  entries : Array Word := #[]
  deriving DecidableEq, Inhabited, Repr

namespace Dictionary

/-- The dictionary without words. -/
def empty : Dictionary := {}

/-- The number of words, which is also the index the next one gets. -/
def size (d : Dictionary) : Nat := d.entries.size

/-- The words from the oldest to the newest. -/
def words (d : Dictionary) : List Word := d.entries.toList

/-- Appends a word; its index is the former size. -/
def add (d : Dictionary) (word : Word) : Dictionary := ⟨d.entries.push word⟩

/-- Appends words in the given order. -/
def addAll (d : Dictionary) (words : List Word) : Dictionary := words.foldl add d

/-! ## Lookup -/

/-- The word at an index. -/
def get? (d : Dictionary) (index : Nat) : Option Word := d.entries[index]?

/-- The word that a cell of code refers to. -/
def resolve? (d : Dictionary) (cell : Cell) : Option Word := cell.index?.bind d.get?

/-- The newest word. -/
def last? (d : Dictionary) : Option Word := d.entries.back?

/-- The newest visible word of that name among the first `count` words, with its index. -/
def findBelow? (d : Dictionary) (name : String) : Nat → Option (Nat × Word)
  | 0         => none
  | count + 1 =>
    match d.get? count with
    | some word =>
      if word.isVisible && word.name == name then some (count, word) else d.findBelow? name count
    | none => d.findBelow? name count

/-- The newest visible word of that name, with its index. -/
def find? (d : Dictionary) (name : String) : Option (Nat × Word) := d.findBelow? name d.size

/-- The names of the visible words, the newest first, each name once. -/
def visibleNames (d : Dictionary) : List String :=
  ((d.words.reverse.filter Word.isVisible).map Word.name).eraseDups

/-! ## Changes to the newest word -/

/-- Changes the newest word, unless there is none or `f` refuses it. -/
def changeLast? (d : Dictionary) (f : Word → Option Word) : Option Dictionary :=
  match d.last? with
  | some word => (f word).map fun changed => ⟨d.entries.pop.push changed⟩
  | none      => none

/-- Hides the newest word. -/
def hideLast? (d : Dictionary) : Option Dictionary :=
  d.changeLast? fun word => some { word with hidden := true }

/-- Makes the newest word visible. -/
def revealLast? (d : Dictionary) : Option Dictionary :=
  d.changeLast? fun word => some { word with hidden := false }

/-- Names the newest word, which must not have a name yet. -/
def nameLast? (d : Dictionary) (name : String) : Option Dictionary :=
  d.changeLast? fun word => if word.name.isEmpty then some { word with name } else none

/-! ## The operations on the list of words -/

@[simp] theorem words_empty : empty.words = [] := rfl

@[simp] theorem length_words (d : Dictionary) : d.words.length = d.size := rfl

@[simp] theorem words_add (d : Dictionary) (w : Word) : (d.add w).words = d.words ++ [w] := by
  simp [words, add]

@[simp] theorem words_addAll (d : Dictionary) (ws : List Word) :
    (d.addAll ws).words = d.words ++ ws := by
  induction ws generalizing d with
  | nil => simp [addAll]
  | cons w ws ih => simpa [addAll] using ih (d.add w)

@[simp] theorem getElem?_words (d : Dictionary) (index : Nat) :
    d.words[index]? = d.get? index := by
  simp [words, get?]

@[simp] theorem getLast?_words (d : Dictionary) : d.words.getLast? = d.last? := by
  simp [words, last?]

/-- A change leaves all words but the newest as they are. -/
theorem words_of_changeLast? {d d' : Dictionary} {f : Word → Option Word}
    (h : d.changeLast? f = some d') :
    ∃ older last changed, d.words = older ++ [last] ∧ f last = some changed ∧
      d'.words = older ++ [changed] := by
  unfold changeLast? at h
  split at h
  · next last hlast =>
    obtain ⟨changed, hchanged, h⟩ := Option.map_eq_some_iff.mp h
    cases h
    obtain ⟨⟨entries⟩⟩ := d
    obtain ⟨older, rfl⟩ := List.getLast?_eq_some_iff.mp (by simpa [last?] using hlast)
    exact ⟨older, last, changed, rfl, hchanged, by simp [words]⟩
  · cases h

end Dictionary

end MiniForth
