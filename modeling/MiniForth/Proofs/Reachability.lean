import MiniForth.Proofs.Interpreter

/-!
# The sessions there are

Two notions of a session that can come about: `Session.Reachable`, from lines alone, and
`Session.Attainable`, from everything that can be done with a session from outside, in any order.

* `Attainable.returns_eq_nil`: from outside, no call is ever seen running.
-/

namespace MiniForth

namespace Session

/-- A session that lines lead to. -/
inductive Reachable : Session → Prop where
  | initial : Reachable .initial
  | line {s t : Session} {fuel : Nat} {text : String} {response : Response} :
      Reachable s → s.process? fuel text = some (response, t) → Reachable t

end Session

/-- What can be done with a session from outside. -/
inductive Operation where
  | line (text : String)
  | token (t : Token)
  /-- Executes the word at an index. -/
  | execute (index : Nat)
  /-- Runs the code at an address. -/
  | run (entry : Nat)
  /-- Has a primitive take effect; what it asks for is not carried out. -/
  | perform (p : Primitive)
  | compile (cell : Cell)
  | push (value : Cell)
  | pop
  | emit (text : String)
  | paint (colour : Cell)
  | setMode (mode : Mode)
  | setPhase (phase : Phase)
  /-- Puts any dictionary in place, so this covers every change to the one that is there. -/
  | setDictionary (dictionary : Dictionary)

/-- The session after an operation, whether the operation failed or not. -/
def Operation.carryOut? (fuel : Nat) (s : Session) : Operation → Option Session
  | line text                => (s.process? fuel text).map Prod.snd
  | token t                  => (s.interpret? fuel t).map Outcome.session
  | execute index            => (s.execute? fuel index).map Outcome.session
  | run entry                => (s.run? fuel entry).map Outcome.session
  | perform p                => some (Outcome.session (p.perform s))
  | compile cell             => some (s.compile cell)
  | push value               => some (s.push value)
  | pop                      => some (Outcome.session (Action.pop s))
  | emit text                => some (s.emit text)
  | paint colour             => some (s.paint colour)
  | setMode mode             => some { s with mode }
  | setPhase phase           => some { s with phase }
  | setDictionary dictionary => some { s with dictionary }

namespace Session

/-- A session that operations lead to. -/
inductive Attainable : Session → Prop where
  | initial : Attainable .initial
  | operate {s t : Session} {fuel : Nat} {operation : Operation} :
      Attainable s → operation.carryOut? fuel s = some t → Attainable t

/-! ## No call is running in between -/

theorem returns_of_run? {fuel entry : Nat} {s : Session} {o : Outcome Unit}
    (h : s.run? fuel entry = some o) : (Outcome.session o).returns = [] := by
  obtain ⟨-, -, c, -, hc, rfl⟩ := run?_eq_some_iff.mp h
  have hreturns : c.session.returns = [] := List.isEmpty_iff.mp hc
  rw [Call.outcome]
  split <;> exact hreturns

theorem returns_of_performOnTokens {s : Session} (p : Primitive) (hs : s.returns = []) :
    (Outcome.session (p.performOnTokens s)).returns = [] := by
  obtain ⟨pending, hsession⟩ := session_performOnTokens p hs
  rw [hsession]
  exact (Primitive.perform_keeps s p).returns.trans hs

theorem returns_of_interprets {fuel : Nat} {s : Session} {t : Token} {o : Outcome Unit}
    (hs : s.returns = []) (h : s.Interprets fuel t o) : (Outcome.session o).returns = [] := by
  cases h with
  | perform => exact returns_of_performOnTokens _ hs
  | run _ _ _ _ _ hrun => exact returns_of_run? hrun
  | _ => exact hs

theorem returns_of_process? {fuel : Nat} {s t : Session} {line : String} {response : Response}
    (hs : s.returns = []) (h : s.process? fuel line = some (response, t)) : t.returns = [] :=
  process?_invariant (P := fun s => s.returns = []) (fun _ _ hs => hs)
    (fun _ _ _ hs h => returns_of_interprets hs h) (fun _ hs => hs) (fun _ hs => hs) hs h

/-- For an invariant of lines it is enough that tokens keep it where no call is running. -/
theorem process?_invariant_of_returns {P : Session → Prop} {fuel : Nat} {line : String}
    {s t : Session} {response : Response} (hlocation : ∀ s l, P s → P { s with location := l })
    (htoken : ∀ s' token o, Meets s.startLine (Token.ofLine source s.startLine.lines line) s' token →
      s'.returns = [] → P s' → s'.Interprets fuel token o → P (Outcome.session o))
    (hstart : ∀ s, P s → P s.startLine) (hend : ∀ s, P s → P s.endLine) (hreturns : s.returns = [])
    (hs : P s) (h : s.process? fuel line = some (response, t)) : P t := by
  let I (u : Session) : Prop := u.returns = [] ∧ P u
  have hI : I t := by
    apply process?_invariant_of_meets _ _ _ _ (show I s from ⟨hreturns, hs⟩) h
    · rintro u l ⟨hu, hP⟩
      exact ⟨hu, hlocation u l hP⟩
    · rintro u token o hmeets ⟨hu, hP⟩ hinterprets
      exact ⟨returns_of_interprets hu hinterprets, htoken u token o hmeets hu hP hinterprets⟩
    · rintro u ⟨hu, hP⟩
      exact ⟨hu, hstart u hP⟩
    · rintro u ⟨hu, hP⟩
      exact ⟨hu, hend u hP⟩
  exact hI.2

theorem returns_of_execute? {fuel index : Nat} {s : Session} {o : Outcome Unit}
    (hs : s.returns = []) (h : s.execute? fuel index = some o) :
    (Outcome.session o).returns = [] := by
  rw [execute?] at h
  split at h
  · cases h; exact hs
  · cases h; exact returns_of_performOnTokens _ hs
  · exact returns_of_run? h

theorem Reachable.returns_eq_nil {s : Session} (h : s.Reachable) : s.returns = [] := by
  induction h with
  | initial => rfl
  | line _ hline ih => exact returns_of_process? ih hline

/-- A session between lines is as a line leaves it. -/
theorem Reachable.endLine_eq {s : Session} (h : s.Reachable) : s.endLine = s := by
  cases h with
  | initial => rfl
  | line _ hline =>
    obtain ⟨o, -, hrespond⟩ := Option.map_eq_some_iff.mp hline
    have hend : s = (Outcome.session o).endLine := by rw [← snd_respond, hrespond]
    rw [hend]
    rfl

/-- The response to a line that has changed the parameter stack only. What it has put down for its own
words is gone at its end. -/
theorem respond_withStack {s : Session} (hend : s.endLine = s) (stack : Stack Cell)
    (location : Option Location) : respond (.ok () { s.startLine with stack, location }) =
      ({}, { s with stack, lines := s.lines + 1 }) := by
  have hsame : { s with stack, lines := s.lines + 1 } =
      { s.endLine with stack, lines := s.lines + 1 } := by
    rw [hend]
  rw [hsame]
  rfl

theorem returns_of_carryOut? {fuel : Nat} {s t : Session} {operation : Operation}
    (hs : s.returns = []) (h : operation.carryOut? fuel s = some t) : t.returns = [] := by
  cases operation with
  | line text =>
    obtain ⟨⟨response, u⟩, hline, rfl⟩ := Option.map_eq_some_iff.mp h
    exact returns_of_process? hs hline
  | token token =>
    obtain ⟨o, ho, rfl⟩ := Option.map_eq_some_iff.mp h
    exact returns_of_interprets hs (interpret?_eq_some_iff.mp ho)
  | execute index =>
    obtain ⟨o, ho, rfl⟩ := Option.map_eq_some_iff.mp h
    exact returns_of_execute? hs ho
  | run entry =>
    obtain ⟨o, ho, rfl⟩ := Option.map_eq_some_iff.mp h
    exact returns_of_run? ho
  | perform p =>
    cases h
    exact (Primitive.perform_keeps s p).returns.trans hs
  | pop =>
    cases h
    rw [Action.pop]
    split <;> exact hs
  | _ => cases h; exact hs

theorem Attainable.returns_eq_nil {s : Session} (h : s.Attainable) : s.returns = [] := by
  induction h with
  | initial => rfl
  | operate _ hoperation ih => exact returns_of_carryOut? ih hoperation

end Session

end MiniForth
