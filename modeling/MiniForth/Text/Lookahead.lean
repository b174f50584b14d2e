import MiniForth.Text.Token

/-!
# Looking ahead

A `Lookahead` reads a line from a source that gives out one character at a time and takes none back. It
can only look at the next character by taking it off the source, and then holds it until it is read. To
whoever asks it is a `Reader` in front of what it holds and what the source has left.

* `peek_eq`: looking changes nothing that can be seen.
* `next_eq`: reading gives the same character and the same place, held or not.
* `span_eq`: so a run that is read by looking and reading is the run of the reader. `tokens` reads the words
  of a line in such runs.
-/

namespace MiniForth

/-- One line of text, taken off its source character by character. -/
structure Lookahead where
  /-- Where the next character stands. -/
  location : Location
  /-- The character that has been looked at and not read yet. -/
  held     : Option Char := none
  /-- What the source has left. -/
  source   : List Char

namespace Lookahead

/-- In front of the first character of a line. -/
def ofLine (path : String) (line : Nat) (text : String) : Lookahead where
  location := { path, line, column := 1 }
  source   := text.toList

/-- Takes a character off the source. -/
def take (l : Lookahead) : Option Char × Lookahead :=
  match l.source with
  | []      => (none, l)
  | c :: cs => (some c, { l with source := cs })

/-- Looks at the next character, and holds it from then on. -/
def peek (l : Lookahead) : Option Char × Lookahead :=
  match l.held with
  | some c => (some c, l)
  | none   => (l.take.1, { l.take.2 with held := l.take.1 })

/-- Reads the next character: the one that is held, or else one off the source. -/
def next (l : Lookahead) : Option Char × Lookahead :=
  let (found, rest) : Option Char × Lookahead :=
    match l.held with
    | some c => (some c, { l with held := none })
    | none   => l.take
  (found, if found.isSome then { rest with location := rest.location.advance 1 } else rest)

/-! ## The same as a reader -/

/-- What it is to whoever asks. -/
def reader (l : Lookahead) : Reader where
  location := l.location
  rest     := l.held.toList ++ l.source

theorem reader_ofLine (path : String) (line : Nat) (text : String) :
    (ofLine path line text).reader = Reader.ofLine path line text := rfl

theorem peek_eq (l : Lookahead) : (l.peek.1, l.peek.2.reader) = (l.reader.peek?, l.reader) := by
  obtain ⟨location, _ | c, source⟩ := l
  · cases source <;> rfl
  · rfl

theorem next_eq (l : Lookahead) : (l.next.1, l.next.2.reader) = l.reader.next := by
  obtain ⟨location, _ | c, source⟩ := l
  · cases source <;> rfl
  · rfl

theorem fst_peek (l : Lookahead) : l.peek.1 = l.reader.peek? := congrArg Prod.fst l.peek_eq

theorem reader_peek (l : Lookahead) : l.peek.2.reader = l.reader := congrArg Prod.snd l.peek_eq

theorem reader_next (l : Lookahead) : l.next.2.reader = l.reader.next.2 := congrArg Prod.snd l.next_eq

/-! ## Runs of characters -/

theorem length_rest_next_lt {l : Lookahead} {c : Char} (h : l.peek.1 = some c) :
    l.peek.2.next.2.reader.rest.length < l.reader.rest.length := by
  rw [reader_next, reader_peek]
  exact Reader.length_rest_next_lt (l.fst_peek ▸ h)

/-- Reads characters as long as the one that is looked at satisfies `p`. -/
def span (p : Char → Bool) (l : Lookahead) : List Char × Lookahead :=
  match _ : l.peek.1 with
  | some c =>
    if p c then
      let (run, rest) := span p l.peek.2.next.2
      (c :: run, rest)
    else ([], l.peek.2)
  | none   => ([], l.peek.2)
termination_by l.reader.rest.length
decreasing_by exact length_rest_next_lt ‹_›

theorem span_of_peek {p : Char → Bool} {l : Lookahead} {c : Char} (h : l.peek.1 = some c)
    (hc : p c = true) :
    l.span p = (c :: (l.peek.2.next.2.span p).1, (l.peek.2.next.2.span p).2) := by
  rw [span]
  split
  · next x hx =>
    cases h.symm.trans hx
    exact if_pos hc
  · next hnone => cases h.symm.trans hnone

theorem span_of_stops {p : Char → Bool} {l : Lookahead} (h : ∀ c ∈ l.peek.1, ¬p c = true) :
    l.span p = ([], l.peek.2) := by
  rw [span]
  split
  · next c hc => exact if_neg (h c hc)
  · rfl

theorem span_eq (p : Char → Bool) (l : Lookahead) :
    ((l.span p).1, (l.span p).2.reader) = l.reader.span p := by
  have hstops : ∀ l : Lookahead, (∀ c ∈ l.peek.1, ¬p c = true) →
      ((l.span p).1, (l.span p).2.reader) = l.reader.span p := by
    intro l h
    rw [span_of_stops h, reader_peek, Reader.span_of_stops (l.fst_peek ▸ h)]
  induction l using span.induct p with
  | case1 l c hc hp run rest hspan ih =>
    rw [reader_next, reader_peek] at ih
    rw [span_of_peek hc hp, Reader.span_of_peek? (l.fst_peek ▸ hc) hp, ← ih]
  | case2 l c hc hp =>
    apply hstops
    intro x hx
    cases hc.symm.trans hx
    exact hp
  | case3 l hnone =>
    apply hstops
    simp [hnone]

theorem reader_span (p : Char → Bool) (l : Lookahead) : (l.span p).2.reader = (l.reader.span p).2 :=
  congrArg Prod.snd (l.span_eq p)

/-! ## Words -/

/-- A run whose first character has been looked at shortens the line. -/
theorem length_rest_span_lt {p : Char → Bool} {l : Lookahead} {c : Char} (h : l.peek.1 = some c)
    (hc : p c = true) : (l.peek.2.span p).2.reader.rest.length < l.reader.rest.length := by
  rw [reader_span, reader_peek]
  apply Reader.length_rest_span_lt
  rw [Reader.span_of_peek? (l.fst_peek ▸ h) hc]
  exact List.cons_ne_nil c _

/-- The words in front. The character that is looked at tells whether separators are to be skipped or a
word is to be read. -/
def tokens (l : Lookahead) : List Token :=
  match _ : l.peek.1 with
  | none   => []
  | some c =>
    if _ : Text.isSeparator c = true then tokens (l.peek.2.span Text.isSeparator).2
    else
      let word := l.peek.2.span (!Text.isSeparator ·)
      { text := String.ofList word.1, location := l.peek.2.location } :: tokens word.2
termination_by l.reader.rest.length
decreasing_by all_goals exact length_rest_span_lt ‹_› (by simp_all)

end Lookahead

end MiniForth
