import MiniForth.Proofs.Turns

/-!
# Frames: the recursive meaning of code

A *frame* is one running definition. `Frame.eval?` says what it means to run one, by recursion and
without return addresses: cells are carried out one after the other, a compiled word is a frame of its
own, and the frame goes on behind the cell that called it. A memory fault ends the frame it happens
in, any other failure ends all frames.

The loop of `MiniForth.Session.Call` keeps return addresses instead. What it does is put in terms of
frames here, one cell at a time.

* `dispatch_withReturns`: a dispatch is a step of the innermost frame.
* `Call.turn_eq`: a turn is one too, with the end of frames that failures bring about.
-/

namespace MiniForth

/-- How a frame ends. -/
inductive Ending where
  /-- The caller goes on. The first memory fault that the frame or one of its callees met, if any, is
  reported when all is over. -/
  | returned (fault : Option Failure)
  /-- The callers are given up too, and this is reported. -/
  | aborted (failure : Failure)
  deriving DecidableEq, Repr

namespace Ending

/-- The ending of a frame with a callee that met a fault before. -/
def after (fault : Option Failure) : Ending → Ending
  | returned later  => returned (fault <|> later)
  | aborted failure => aborted (fault.getD failure)

/-- What the outermost frame reports. -/
def outcome : Ending → Session → Outcome Unit
  | returned none, s     => .ok () s
  | returned (some f), s => .error f s
  | aborted f, s         => .error f s

end Ending

namespace Frame

/-- What comes of one cell. -/
inductive Step where
  /-- The frame goes on under the cursor. -/
  | next (s : Session)
  /-- The code at `entry` is run, and then the frame goes on under the cursor it has in `s`. -/
  | call (s : Session) (entry : Nat)
  /-- The frame ends. -/
  | stop (ending : Ending) (s : Session)
  deriving DecidableEq, Repr

/-- The session after a step. -/
def Step.session : Step → Session
  | .next s   => s
  | .call s _ => s
  | .stop _ s => s

/-- Carries out a primitive; the cursor stands behind its cell. -/
def perform (s : Session) : Primitive → Step
  | .exit       => .stop (.returned none) s
  | .branch     => .next s.skipCell
  | .literal    =>
    match s.code.get? s.cursor with
    | some value => .next (s.push value).skipCell
    | none       => .stop (.returned (some (.ofCause s.location (.outsideCode s.cursor)))) s
  | .zeroBranch =>
    match s.stack.pop? with
    | some (flag, rest) =>
      if flag = 0 then .next { s with stack := rest }.skipCell else .next { s with stack := rest }
    | none              => .stop (.aborted (.ofCause s.location .emptyStack)) s
  | .semicolon  =>
    -- The one cell it writes is the one under the cursor.
    let t := { s.closeDefinition with cursor := s.cursor + 1 }
    if s.mode = .compile then .next t
    else .stop (.aborted (.ofCause s.location .unexpectedSemicolon)) t
  | operation   =>
    match operation.perform s with
    | .ok _ t    => .next { t with cursor := s.cursor }
    | .error f t => .stop (.aborted f) t

/-- Carries out the cell under the cursor. -/
def step (s : Session) : Step :=
  match s.code.get? s.cursor with
  | none      => .stop (.returned (some (.ofCause s.location (.outsideCode s.cursor)))) s
  | some cell =>
    match (s.dictionary.resolve? cell).map Word.behavior with
    | none                        =>
      .stop (.returned (some (.ofCause s.location (.notAWord cell s.cursor)))) s.skipCell
    | some (.compiled entry)      => .call s.skipCell entry
    | some (.primitive operation) => perform s.skipCell operation

/-- Runs the frame that stands at the cursor. The session it leaves has its cursor anywhere. -/
def eval? : Nat → Session → Option (Ending × Session)
  | 0, _        => none
  | fuel + 1, s =>
    match step s with
    | .stop ending t => some (ending, t)
    | .next t        => eval? fuel t
    | .call t entry  =>
      match eval? fuel { t with cursor := entry } with
      | some (.returned fault, u) =>
        (eval? fuel { u with cursor := t.cursor }).map fun (ending, v) => (ending.after fault, v)
      | aborted                   => aborted

end Frame

/-- Runs the code at `entry` as a frame. -/
def Session.evaluate? (fuel : Nat) (s : Session) (entry : Nat) : Option (Outcome Unit) :=
  (Frame.eval? fuel { s with cursor := entry }).map fun (ending, t) =>
    ending.outcome { t with cursor := s.cursor }

namespace Session

/-- The behavior of the word that the cell at an address refers to. -/
def behaviorAt? (s : Session) (address : Nat) : Option Behavior :=
  (s.code.get? address).bind fun cell => (s.dictionary.resolve? cell).map Word.behavior

/-- The behavior of the word under the cursor. -/
def upcoming? (s : Session) : Option Behavior := s.behaviorAt? s.cursor

@[simp] theorem upcoming?_withReturns (s : Session) (returns : List Nat) :
    (s.withReturns returns).upcoming? = s.upcoming? := rfl

end Session

namespace Frame

theorem step_of_primitive {s : Session} {p : Primitive} (h : s.upcoming? = some (.primitive p)) :
    step s = perform s.skipCell p := by
  obtain ⟨cell, hcell, hword⟩ := Option.bind_eq_some_iff.mp h
  rw [step, hcell]
  simp only [hword]

theorem step_of_compiled {s : Session} {entry : Nat} (h : s.upcoming? = some (.compiled entry)) :
    step s = .call s.skipCell entry := by
  obtain ⟨cell, hcell, hword⟩ := Option.bind_eq_some_iff.mp h
  rw [step, hcell]
  simp only [hword]

/-- The cell under the cursor is missing or refers to no word. -/
theorem step_of_upcoming?_eq_none {s : Session} (h : s.upcoming? = none) :
    ∃ f t, step s = .stop (.returned (some f)) t ∧ (t = s ∨ t = s.skipCell) := by
  rw [step]
  rcases hcell : s.code.get? s.cursor with _ | cell
  · exact ⟨_, _, rfl, .inl rfl⟩
  · rw [Session.upcoming?, Session.behaviorAt?, hcell, Option.bind_some] at h
    simp only [h]
    exact ⟨_, _, rfl, .inr rfl⟩

/-- What becomes of a session in a step: at most its cursor moves, unless a primitive is carried out. -/
theorem step_session {P : Session → Prop} {s : Session} (hhere : P s) (hskip : P s.skipCell)
    (hperform : ∀ p, s.upcoming? = some (.primitive p) → P (perform s.skipCell p).session) :
    P (step s).session := by
  rcases hup : s.upcoming? with _ | ⟨p⟩ | ⟨entry⟩
  · obtain ⟨f, t, hstep, rfl | rfl⟩ := step_of_upcoming?_eq_none hup
    · rw [hstep]
      exact hhere
    · rw [hstep]
      exact hskip
  · rw [step_of_primitive hup]
    exact hperform p hup
  · rw [step_of_compiled hup]
    exact hskip

theorem step_of_literal {s : Session} {value : Cell} (h : s.upcoming? = some (.primitive .literal))
    (hvalue : s.code.get? (s.cursor + 1) = some value) :
    step s = .next (s.skipCell.push value).skipCell := by
  have hcell : s.skipCell.code.get? s.skipCell.cursor = some value := hvalue
  rw [step_of_primitive h, perform, hcell]

theorem perform_of_not_steers {p : Primitive} (s : Session) (hp : p.steers = false)
    (hsemi : p ≠ .semicolon) : perform s p =
      match p.perform s with
      | .ok _ t    => .next { t with cursor := s.cursor }
      | .error f t => .stop (.aborted f) t := by
  cases p
  case exit | literal | branch | zeroBranch => cases hp
  case semicolon => exact absurd rfl hsemi
  all_goals rfl

/-- A primitive that neither works on definitions nor steers has its effect, or all frames end. -/
theorem perform_of_computes {p : Primitive} (s : Session) (hp : p.defines = false)
    (hsteers : p.steers = false) : perform s p =
      match p.effect? s.dictionary s.stack with
      | some e => .next (e.apply s)
      | none   => .stop (.aborted (.ofCause s.location (p.complaint s.stack.size))) s := by
  rw [perform_of_not_steers s hsteers (Primitive.ne_semicolon_of_defines hp), Primitive.perform_of_computes s hp]
  rcases p.effect? s.dictionary s.stack with _ | e <;> rfl

end Frame

/-! ## A turn of the loop -/

/-- Carries out on code memory a primitive and what it asks for. -/
def Primitive.performOnCode (operation : Primitive) : Action Unit := do
  let flow ← operation.perform
  flow.onCode

theorem dispatch_eq (s : Session) : dispatch s =
    match s.code.get? s.cursor with
    | none      => .error (.ofCause s.location (.outsideCode s.cursor)) s
    | some cell =>
      match (s.dictionary.resolve? cell).map Word.behavior with
      | none                        => .error (.ofCause s.location (.notAWord cell s.cursor)) s.skipCell
      | some (.compiled entry)      => .ok () (s.skipCell.enter entry)
      | some (.primitive operation) => operation.performOnCode s.skipCell := by
  simp only [dispatch, bind, EStateM.bind, Action.get_apply, Action.fetch]
  rcases hcell : s.code.get? s.cursor with _ | cell
  · rfl
  · simp only
    rcases h : (s.dictionary.resolve? cell).map Word.behavior with _ | ⟨operation⟩ | ⟨entry⟩
    all_goals
      simp only [Session.skipCell, h]
      rfl

/-- The outcome of a dispatch in a frame that was called from `resume`, and so on. -/
def Frame.Step.outcome (resume : Nat) (outer : List Nat) : Step → Outcome Unit
  | .next t                      => .ok () (t.withReturns (resume :: outer))
  | .call t entry                =>
    .ok () ({ t with cursor := entry }.withReturns (t.cursor :: resume :: outer))
  | .stop (.returned none) t     => .ok () ({ t with cursor := resume }.withReturns outer)
  | .stop (.returned (some f)) t => .error f (t.withReturns (resume :: outer))
  | .stop (.aborted f) t         => .error f (t.withReturns (resume :: outer))

theorem performOnCode_withReturns (s : Session) (p : Primitive) (resume : Nat) (outer : List Nat) :
    p.performOnCode (s.withReturns (resume :: outer)) =
      (Frame.perform s p).outcome resume outer := by
  by_cases hplain : p.steers = false ∧ p ≠ .semicolon
  · obtain ⟨hp, hsemi⟩ := hplain
    rw [Frame.perform_of_not_steers s hp hsemi]
    simp only [Primitive.performOnCode, bind, EStateM.bind, Primitive.perform_withReturns]
    rcases h : p.perform s with ⟨flow, t⟩ | ⟨f, t⟩
    · have hflow := Primitive.flow_of_perform hp h
      have hcursor := Primitive.cursor_of_perform hsemi h
      subst hflow
      simp only [← hcursor]
      rfl
    · rfl
  · -- What is left moves the cursor.
    simp only [Primitive.performOnCode, bind, EStateM.bind]
    cases p
    case exit | branch => rfl
    case literal =>
      simp only [Primitive.perform_literal, Flow.onCode, bind, EStateM.bind, Action.fetch,
        Frame.perform, Session.code_withReturns, Session.cursor_withReturns]
      rcases s.code.get? s.cursor with _ | value <;> rfl
    case zeroBranch =>
      simp only [Primitive.perform_zeroBranch, Frame.perform, Session.stack_withReturns]
      rcases s.stack.pop? with _ | ⟨flag, rest⟩
      · rfl
      · by_cases hflag : flag = 0
        · simp only [hflag, if_true]; rfl
        · simp only [hflag, if_false]; rfl
    case semicolon =>
      rw [Primitive.perform_semicolon, Session.mode_withReturns]
      rcases h : s.mode
      all_goals
        simp only [Frame.perform, h]
        rfl
    all_goals exact absurd ⟨rfl, by decide⟩ hplain

/-- One dispatch in terms of frames. -/
theorem dispatch_withReturns (s : Session) (resume : Nat) (outer : List Nat) :
    dispatch (s.withReturns (resume :: outer)) = (Frame.step s).outcome resume outer := by
  rw [dispatch_eq, Frame.step, Session.code_withReturns, Session.cursor_withReturns,
    Session.dictionary_withReturns]
  rcases s.code.get? s.cursor with _ | cell
  · rfl
  · simp only
    rcases (s.dictionary.resolve? cell).map Word.behavior with _ | ⟨operation⟩ | ⟨entry⟩
    · rfl
    · exact performOnCode_withReturns s.skipCell operation resume outer
    · rfl

namespace Frame

/-- To carry a primitive out in code is to perform it, but for the cells it takes and the cursor. -/
theorem session_perform (s : Session) (p : Primitive) : ∃ stack cursor,
    (perform s p).session =
      { Outcome.session (p.perform s) with stack := stack, cursor := cursor } := by
  fun_cases perform s p
  case case5 rest hpop =>
    rw [Primitive.perform_zeroBranch, hpop]
    exact ⟨rest, s.cursor + 1, rfl⟩
  case case6 rest hpop _ =>
    rw [Primitive.perform_zeroBranch, hpop]
    exact ⟨rest, s.cursor, rfl⟩
  case case7 hpop =>
    rw [Primitive.perform_zeroBranch, hpop]
    exact ⟨s.stack, s.cursor, rfl⟩
  case case8 t hmode =>
    rw [Primitive.perform_semicolon]
    split <;> exact ⟨s.stack, s.cursor + 1, rfl⟩
  case case9 t hmode =>
    rw [Primitive.perform_semicolon]
    split <;> exact ⟨s.stack, s.cursor + 1, rfl⟩
  case case10 _ t _ _ _ _ _ h =>
    rw [h]
    exact ⟨t.stack, s.cursor, rfl⟩
  case case11 f t _ _ _ _ _ h =>
    rw [h]
    exact ⟨t.stack, t.cursor, rfl⟩
  all_goals exact ⟨_, _, rfl⟩

theorem perform_keeps (s : Session) (p : Primitive) : s.Keeps (perform s p).session := by
  obtain ⟨stack, cursor, hsession⟩ := session_perform s p
  have hkeeps := Primitive.perform_keeps s p
  rw [hsession]
  exact ⟨hkeeps.returns, hkeeps.location, hkeeps.lines, hkeeps.pending⟩

theorem step_keeps (s : Session) : s.Keeps (step s).session := by
  have hskip : s.Keeps s.skipCell := ⟨rfl, rfl, rfl, rfl⟩
  apply step_session (.refl s) hskip
  intro p _
  exact hskip.trans (perform_keeps s.skipCell p)

end Frame

theorem kind_complaint (p : Primitive) (depth : Nat) :
    (p.complaint depth).kind ≠ .memoryFault := by
  cases p <;> simp [Primitive.complaint, Cause.kind]

/-- A primitive that fails is no memory fault. -/
theorem kind_of_perform_error {s t : Session} {p : Primitive} {f : Failure}
    (h : p.perform s = .error f t) : f.kind ≠ .memoryFault := by
  obtain ⟨-, rfl, -⟩ := Primitive.perform_error h
  exact kind_complaint p s.stack.size

namespace Frame

/-- A frame that returns with a failure met a memory fault, one that aborts met something else. -/
def Step.Sorted : Step → Prop
  | .stop (.returned (some f)) _ => f.kind = .memoryFault
  | .stop (.aborted f) _         => f.kind ≠ .memoryFault
  | _                            => True

theorem perform_sorted (s : Session) (p : Primitive) : (perform s p).Sorted := by
  fun_cases perform s p
  case case4 => rfl
  case case7 | case9 => simp [Step.Sorted, Cause.kind]
  case case11 f t _ _ _ _ _ h => exact kind_of_perform_error h
  all_goals trivial

theorem step_sorted (s : Session) : (step s).Sorted := by
  rw [step]
  split
  · rfl
  · split
    · rfl
    · trivial
    · exact perform_sorted _ _

end Frame

/-- The call of the top level when a frame that was called from `resume`, and so on, has ended. -/
def Ending.resume (failure : Option Failure) (resume : Nat) (outer : List Nat) (t : Session) :
    Ending → Call
  | returned fault  =>
    { session := { t with cursor := resume }.withReturns outer, failure := failure <|> fault }
  | aborted failed  =>
    { session := { t with cursor := outer.getLast?.getD resume }.withReturns []
      failure := failure <|> some failed }

/-- One turn in terms of frames. -/
theorem Call.turn_eq (s : Session) (failure : Option Failure) (resume : Nat) (outer : List Nat) :
    Call.turn { session := s.withReturns (resume :: outer), failure } =
      match Frame.step s with
      | .next t        => { session := t.withReturns (resume :: outer), failure }
      | .call t entry  =>
        { session := { t with cursor := entry }.withReturns (t.cursor :: resume :: outer), failure }
      | .stop ending t => ending.resume failure resume outer t := by
  -- The loop tells by the kind of a failure what the frame tells by how it ends.
  have hsorted := Frame.step_sorted s
  rw [Call.turn, dispatch_withReturns]
  generalize Frame.step s = step at hsorted ⊢
  rcases step with t | ⟨t, entry⟩ | ⟨⟨_ | f⟩ | f, t⟩
  · rfl
  · rfl
  · simp [Frame.Step.outcome, Ending.resume]
  · have hkind : f.kind = .memoryFault := hsorted
    simp only [Frame.Step.outcome, hkind, if_true]
    rfl
  · have hkind : f.kind ≠ .memoryFault := hsorted
    simp only [Frame.Step.outcome, hkind, if_false, Session.abandon, Session.returns_withReturns,
      List.getLast?_cons]
    rfl

theorem Session.eq_withReturns {s : Session} {returns : List Nat} (hs : s.returns = returns) :
    s = s.withReturns returns := by
  subst hs
  rfl

namespace Call

/-- A running call is in a frame. -/
theorem frame_of_running {c : Call} (hc : c.isOver = false) :
    ∃ resume outer, c.session = c.session.withReturns (resume :: outer) := by
  rcases h : c.session.returns with _ | ⟨resume, outer⟩
  · rw [isOver, h] at hc
    cases hc
  · exact ⟨resume, outer, Session.eq_withReturns h⟩

/-- After a turn the session is the one after the step, but for where execution goes on. -/
theorem session_turn {c : Call} (hc : c.isOver = false) : ∃ cursor returns,
    c.turn.session = { (Frame.step c.session).session with cursor := cursor, returns := returns } := by
  obtain ⟨resume, outer, hframe⟩ := frame_of_running hc
  have hturn := turn_eq c.session c.failure resume outer
  rw [← hframe] at hturn
  rw [show c.turn = _ from hturn]
  rcases Frame.step c.session with t | ⟨t, entry⟩ | ⟨⟨fault⟩ | f, t⟩
  all_goals exact ⟨_, _, rfl⟩

end Call

end MiniForth
