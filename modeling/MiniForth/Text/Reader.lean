import MiniForth.Text.Location

/-!
# Readers

A `Reader` walks over one line of text and knows the location of the character it reads next.
Looking at that character does not move it; reading it moves the location on by one column, and at
the end of the text nothing moves any more. `span` reads a whole run of characters at once.

* `rest_span` and `location_span`: a span takes exactly the characters it returns off the rest, and
  moves the location by their number.
* `span_of_peek?` and `span_of_stops`: it looks at one character after the other, and reads it if it
  belongs to the run.
-/

namespace MiniForth

/-- One line of text, read up to `location`. -/
structure Reader where
  /-- Where the next character stands. -/
  location : Location
  /-- What has not been read yet. -/
  rest     : List Char

namespace Reader

/-- A reader in front of the first character of a line. -/
def ofLine (path : String) (line : Nat) (text : String) : Reader where
  location := { path, line, column := 1 }
  rest     := text.toList

/-- The next character, left where it is. -/
def peek? (r : Reader) : Option Char := r.rest.head?

/-- Reads the next character. -/
def next (r : Reader) : Option Char × Reader :=
  match r.rest with
  | []      => (none, r)
  | c :: cs => (some c, { location := r.location.advance 1, rest := cs })

/-- Reads the characters in front that satisfy `p`. -/
def span (p : Char → Bool) (r : Reader) : List Char × Reader :=
  (r.rest.takeWhile p,
   { location := r.location.advance (r.rest.takeWhile p).length, rest := r.rest.dropWhile p })

/-- Where there is a character to look at, reading shortens the rest. -/
theorem length_rest_next_lt {r : Reader} {c : Char} (h : r.peek? = some c) :
    r.next.2.rest.length < r.rest.length := by
  obtain ⟨location, _ | ⟨x, xs⟩⟩ := r
  · cases h
  · exact Nat.lt_succ_self xs.length

/-- A span goes on with a character that belongs to it. -/
theorem span_of_peek? {p : Char → Bool} {r : Reader} {c : Char} (h : r.peek? = some c)
    (hc : p c = true) : r.span p = (c :: (r.next.2.span p).1, (r.next.2.span p).2) := by
  obtain ⟨location, _ | ⟨x, xs⟩⟩ := r
  · cases h
  · cases h
    simp only [span, next, List.takeWhile_cons_of_pos hc, List.dropWhile_cons_of_pos hc,
      List.length_cons, Location.advance_advance, Nat.add_comm 1]

/-- It is over in front of a character that does not, and at the end of the line. -/
theorem span_of_stops {p : Char → Bool} {r : Reader} (h : ∀ c ∈ r.peek?, ¬p c = true) :
    r.span p = ([], r) := by
  obtain ⟨location, _ | ⟨x, xs⟩⟩ := r
  · rfl
  · have hx : ¬p x = true := h x rfl
    simp only [span, List.takeWhile_cons_of_neg hx, List.dropWhile_cons_of_neg hx, List.length_nil,
      Location.advance_zero]

theorem rest_span (p : Char → Bool) (r : Reader) :
    (r.span p).1 ++ (r.span p).2.rest = r.rest :=
  List.takeWhile_append_dropWhile

theorem location_span (p : Char → Bool) (r : Reader) :
    (r.span p).2.location = r.location.advance (r.span p).1.length := rfl

theorem length_rest_span_le (p : Char → Bool) (r : Reader) :
    (r.span p).2.rest.length ≤ r.rest.length := by
  have h := congrArg List.length (r.rest_span p)
  simp only [List.length_append] at h
  omega

/-- A span that returns a character shortens the rest. -/
theorem length_rest_span_lt {p : Char → Bool} {r : Reader} (h : (r.span p).1 ≠ []) :
    (r.span p).2.rest.length < r.rest.length := by
  have h₁ := congrArg List.length (r.rest_span p)
  have h₂ := List.length_pos_iff.mpr h
  simp only [List.length_append] at h₁
  omega

end Reader

end MiniForth
