import MiniForth.Proofs.Surroundings

/-!
# Cells underneath

A line that finds all the cells it takes on the stack of its session does not notice cells that lie
deeper. It leaves them where they are and puts on top of them what it leaves without them, whatever it
defines and calls on the way, and also where it fails.

* `underflows_iff`: a primitive complains of a stack underflow exactly where it takes more cells than
  there are.
* `process?_above`: a line with cells under the stack of its session.
-/

namespace MiniForth

/-- There are as many cells as the primitive takes. -/
def Session.Feeds (s : Session) (p : Primitive) : Prop := p.arity ≤ s.stack.size

instance (s : Session) (p : Primitive) : Decidable (s.Feeds p) :=
  inferInstanceAs (Decidable (p.arity ≤ s.stack.size))

/-- A primitive fails for want of cells exactly where there are not as many as it takes. -/
theorem Primitive.underflows_iff (p : Primitive) (s : Session) :
    (∃ f t, p.perform s = .error f t ∧ f.kind = .stackUnderflow) ↔ ¬ s.Feeds p := by
  have hfeeds : ¬ s.Feeds p ↔ s.stack.size < p.arity := Nat.not_le
  rw [hfeeds]
  constructor
  · rintro ⟨f, t, hperform, hkind⟩
    obtain ⟨hrefuses, rfl, -⟩ := perform_error hperform
    cases p
    case colon | semicolon => cases hkind
    all_goals exact hrefuses
  · intro hsize
    have hdefines : p.defines = false := by
      cases p
      case hide | reveal | colon | semicolon => exact absurd hsize (Nat.not_lt_zero _)
      all_goals rfl
    have hperform := perform_of_computes s hdefines
    rw [(effect?_eq_none_iff hdefines _ _).mpr hsize] at hperform
    refine ⟨_, _, hperform, ?_⟩
    cases p
    case add | zeroBranch | print | dup | background => rfl
    all_goals exact absurd hsize (Nat.not_lt_zero _)

namespace Session

/-- The session with cells under its parameter stack. -/
def above (s : Session) (base : List Cell) : Session := { s with stack := s.stack.above base }

/-- Cells underneath, for a line that starts on top of them. -/
def underneath (base : List Cell) (comparesOutput : Prop) : Surroundings := { base, comparesOutput }

theorem suits_underneath {base : List Cell} {comparesOutput : Prop} {s : Session} {p : Primitive}
    (hfeeds : s.Feeds p) (hsilent : comparesOutput → p ≠ .printStack) :
    (underneath base comparesOutput).Suits s p where
  fed             := .inr hfeeds
  silent hcompares hp := absurd hp (hsilent hcompares)
  lists _ _       := .inl rfl

variable {base : List Cell} {comparesOutput : Prop}

theorem endLine_of_within_underneath {s t : Session}
    (h : s.Within (underneath base comparesOutput) t) :
    t.endLine = s.endLine.above base ∧ t.background = s.background ∧
      (comparesOutput → t.output = s.output) := by
  cases h with
  | intro houtput hplace hlines =>
    obtain rfl := hplace trivial
    obtain rfl := hlines
    refine ⟨rfl, ?_, fun hcompares => (houtput hcompares).trans (Text.joined_empty_left _)⟩
    show (s.background <|> none) = s.background
    simp

/-- What is said about the outcomes of two lines is said about their responses. -/
theorem respond_above {o o' : Outcome Unit}
    (h : Outcome.Within (underneath base comparesOutput) o o') :
    (respond o').2 = (respond o).2.above base ∧
      (respond o').1.failure = (respond o).1.failure ∧
      (respond o').1.background = (respond o).1.background ∧
      (comparesOutput → (respond o').1.output = (respond o).1.output) := by
  cases h with
  | ok hst =>
    obtain ⟨hend, hbackground, houtput⟩ := endLine_of_within_underneath hst
    exact ⟨hend, rfl, hbackground, houtput⟩
  | error hst hreports =>
    obtain ⟨hend, hbackground, houtput⟩ := endLine_of_within_underneath hst
    exact ⟨hend, congrArg some (hreports.eq trivial), hbackground, houtput⟩

/-- Frame rule: a line that never runs out of cells does the same with any cells under the parameter
stack, and leaves those as they are. It prints the same too, if it does not show the whole stack. -/
theorem process?_above {s t : Session} {fuel : Nat} {line : String} {response : Response}
    (h : s.process? fuel line = some (response, t)) (hfeeds : s.LinePerformsOnly Feeds line)
    (base : List Cell) :
    ∃ response', (s.above base).process? fuel line = some (response', t.above base) ∧
      response'.failure = response.failure ∧ response'.background = response.background ∧
      (s.LinePerformsOnly (fun _ p => p ≠ .printStack) line →
        response'.output = response.output) := by
  -- The outputs are compared where nothing shows the cells underneath.
  let c : Surroundings := underneath base (s.LinePerformsOnly (fun _ p => p ≠ .printStack) line)
  have hstart : s.startLine.Within c (s.above base).startLine :=
    .intro (fun _ => rfl) (fun _ => rfl) rfl
  have hsuits : ∀ s' t, Meets s.startLine (Token.ofLine source s.startLine.lines line) s' t →
      s'.PerformsOnly c.Suits t := by
    intro s' t hmeets
    have hfed := hfeeds s' t hmeets
    by_cases hsilent : s.LinePerformsOnly (fun _ p => p ≠ .printStack) line
    · refine (hfed.and (hsilent s' t hmeets)).imp ?_
      rintro u p ⟨hu, hp⟩
      exact suits_underneath hu fun _ => hp
    · refine hfed.imp ?_
      intro u p hu
      exact suits_underneath hu fun hcompares => absurd hcompares hsilent
  obtain ⟨o, ho, hresponse⟩ := Option.map_eq_some_iff.mp h
  have hall := hstart.interpretAll? rfl (fun _ => rfl) hsuits fuel
  rw [ho] at hall
  obtain ⟨o', ho', hwithin⟩ := exists_of_rel hall
  obtain ⟨hafter, hfailure, hbackground, houtput⟩ := respond_above hwithin
  rw [hresponse] at hafter hfailure hbackground houtput
  refine ⟨(respond o').1, ?_, hfailure, hbackground, houtput⟩
  rw [← hafter]
  exact congrArg (Option.map respond) ho'

/-- A line whose call takes a cell, meets a memory fault, and goes on in the caller. -/
def faultyLine : String := ": bad 0branch branch 99 ; : outer 1 bad + . 5 bg ; 9 3 4 outer"

theorem faultyLine_above : ∃ response t,
    (Session.initial.above [7, 8]).process? 20 faultyLine = some (response, t) ∧
      response.output = "7" ∧ response.background = some 5 ∧
      response.failure.map Failure.kind = some .memoryFault ∧ t.stack.toList = [7, 8, 9] := by
  have hends : (process? 20 .initial faultyLine).map (fun r =>
      (r.1.output, r.1.background, r.1.failure.map Failure.kind, r.2.stack.toList)) =
        some ("7", some 5, some .memoryFault, [9]) := by decide +kernel
  obtain ⟨⟨response, t⟩, hline, hresponse⟩ := Option.map_eq_some_iff.mp hends
  simp only [Prod.mk.injEq] at hresponse
  obtain ⟨houtput, hbackground, hfailure, hstack⟩ := hresponse
  have hfeeds : Session.initial.LinePerformsOnly Feeds faultyLine :=
    linePerformsOnly_of_checks (by rw [hline]; rfl) (by decide +kernel)
  have hsilent : Session.initial.LinePerformsOnly (fun _ p => p ≠ .printStack) faultyLine :=
    linePerformsOnly_of_checks (by rw [hline]; rfl) (by decide +kernel)
  obtain ⟨response', habove, hfailure', hbackground', houtput'⟩ := process?_above hline hfeeds [7, 8]
  refine ⟨response', _, habove, ?_, ?_, ?_, ?_⟩
  · rw [houtput' hsilent, houtput]
  · rw [hbackground', hbackground]
  · rw [hfailure', hfailure]
  · rw [above, Stack.toList_above, hstack]
    rfl

end Session

end MiniForth
