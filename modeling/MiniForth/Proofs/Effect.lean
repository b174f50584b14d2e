import MiniForth.Session.Call

/-!
# What primitives do

`Primitive.perform` is an action put together from smaller ones. Here it is taken apart once: each
primitive gets an equation that says what it makes of a session, and what holds of all primitives is
derived from these.

* `perform_error`: why a primitive fails, and that only `;` changes the session it fails in.
* `leaves_of_perform`: what becomes of a session, in a few cases.
* `perform_withReturns`: no primitive looks at the return addresses.
* `cursor_of_perform`: no primitive but `;` moves the cursor.
-/

namespace MiniForth

/-- The session that an outcome leaves. -/
def Outcome.session {α : Type} : Outcome α → Session
  | .ok _ s    => s
  | .error _ s => s

/-- The failure that an outcome answers with. -/
def Outcome.failure? {α : Type} : Outcome α → Option Failure
  | .ok _ _    => none
  | .error f _ => some f

/-- The outcome with another session. -/
def Outcome.mapSession {α : Type} (g : Session → Session) : Outcome α → Outcome α
  | .ok a s    => .ok a (g s)
  | .error f s => .error f (g s)

/-- The session with other return addresses. -/
def Session.withReturns (s : Session) (returns : List Nat) : Session := { s with returns }

namespace Session

variable (s : Session) (returns : List Nat)

@[simp] theorem stack_withReturns : (s.withReturns returns).stack = s.stack := rfl

@[simp] theorem returns_withReturns : (s.withReturns returns).returns = returns := rfl

@[simp] theorem code_withReturns : (s.withReturns returns).code = s.code := rfl

@[simp] theorem cursor_withReturns : (s.withReturns returns).cursor = s.cursor := rfl

@[simp] theorem dictionary_withReturns : (s.withReturns returns).dictionary = s.dictionary := rfl

@[simp] theorem mode_withReturns : (s.withReturns returns).mode = s.mode := rfl

@[simp] theorem location_withReturns : (s.withReturns returns).location = s.location := rfl

/-- Agreement on what belongs to the running calls and to the line, not to the words. -/
structure Keeps (s t : Session) : Prop where
  returns  : t.returns = s.returns
  location : t.location = s.location
  lines    : t.lines = s.lines
  pending  : t.pending = s.pending

namespace Keeps

variable {s t u : Session}

theorem refl (s : Session) : s.Keeps s := ⟨rfl, rfl, rfl, rfl⟩

theorem trans (h₁ : s.Keeps t) (h₂ : t.Keeps u) : s.Keeps u where
  returns  := h₂.returns.trans h₁.returns
  location := h₂.location.trans h₁.location
  lines    := h₂.lines.trans h₁.lines
  pending  := h₂.pending.trans h₁.pending

end Keeps

end Session

/-! ## Taking cells -/

namespace Stack

variable {α : Type}

/-- Takes the two topmost cells off; the upper one comes second. -/
def popTwo? (s : Stack α) : Option (α × α × Stack α) :=
  match s.pop? with
  | some (upper, t) => t.pop?.map fun (lower, rest) => (lower, upper, rest)
  | none            => none

theorem size_of_pop? {s rest : Stack α} {value : α} (h : s.pop? = some (value, rest)) :
    s.size = rest.size + 1 := by
  rw [← length_toList, toList_of_pop? h, List.length_append, length_toList, List.length_singleton]

theorem size_of_pop?_eq_none {s : Stack α} (h : s.pop? = none) : s.size = 0 := by
  rw [← length_toList, (pop?_eq_none_iff s).mp h, List.length_nil]

theorem pop?_of_popTwo? {s rest : Stack α} {lower upper : α}
    (h : s.popTwo? = some (lower, upper, rest)) :
    ∃ t, s.pop? = some (upper, t) ∧ t.pop? = some (lower, rest) := by
  unfold popTwo? at h
  split at h
  · next u t hs =>
    obtain ⟨⟨l, r⟩, ht, heq⟩ := Option.map_eq_some_iff.mp h
    cases heq
    exact ⟨t, hs, ht⟩
  · cases h

theorem popTwo?_eq_none_iff (s : Stack α) : s.popTwo? = none ↔ s.size < 2 := by
  unfold popTwo?
  rcases h : s.pop? with _ | ⟨upper, t⟩
  · simp [size_of_pop?_eq_none h]
  · have hs := size_of_pop? h
    rcases ht : t.pop? with _ | ⟨lower, rest⟩
    · simp [hs, ht, size_of_pop?_eq_none ht]
    · simp [hs, ht, size_of_pop? ht]

end Stack

/-! ## One equation for each primitive -/

theorem Action.get_apply (s : Session) : (get : Action Session) s = .ok s s := rfl

/-- What starts with a pop fails on an empty stack, or goes on with the topmost cell. -/
theorem Action.pop_bind {α : Type} (next : Cell → Action α) (s : Session) :
    (Action.pop >>= next) s =
      match s.stack.pop? with
      | some (value, rest) => next value { s with stack := rest }
      | none               => .error (.ofCause s.location .emptyStack) s := by
  simp only [bind, EStateM.bind, Action.pop, Stack.pop]
  rcases s.stack.pop? with _ | ⟨value, rest⟩ <;> rfl

namespace Primitive

variable (s : Session)

@[simp] theorem perform_exit : exit.perform s = .ok .exit s := rfl

@[simp] theorem perform_literal : literal.perform s = .ok .literal s := rfl

@[simp] theorem perform_branch : branch.perform s = .ok .skip s := rfl

@[simp] theorem perform_leftBracket :
    leftBracket.perform s = .ok .next { s with mode := .immediate } := rfl

@[simp] theorem perform_rightBracket :
    rightBracket.perform s = .ok .next { s with mode := .compile } := rfl

@[simp] theorem perform_hide : hide.perform s = .ok .next s.hideLast := rfl

@[simp] theorem perform_reveal : reveal.perform s = .ok .next s.revealLast := rfl

@[simp] theorem perform_printStack : printStack.perform s = .ok .next (s.emit s.stackText) := rfl

@[simp] theorem perform_words :
    words.perform s = .ok .next (s.emit (" ".intercalate s.dictionary.visibleNames)) := rfl

theorem perform_zeroBranch : zeroBranch.perform s =
    match s.stack.pop? with
    | some (flag, rest) => .ok (if flag = 0 then .skip else .next) { s with stack := rest }
    | none              => .error (.ofCause s.location .emptyStack) s := by
  rw [perform, Action.pop_bind]
  rcases s.stack.pop? with _ | ⟨flag, rest⟩ <;> rfl

theorem perform_print : print.perform s =
    match s.stack.pop? with
    | some (value, rest) => .ok .next ({ s with stack := rest }.emit value.text)
    | none               => .error (.ofCause s.location .emptyStack) s := by
  rw [perform, Action.pop_bind]
  rcases s.stack.pop? with _ | ⟨value, rest⟩ <;> rfl

theorem perform_background : background.perform s =
    match s.stack.pop? with
    | some (colour, rest) => .ok .next ({ s with stack := rest }.paint colour)
    | none                => .error (.ofCause s.location .emptyStack) s := by
  rw [perform, Action.pop_bind]
  rcases s.stack.pop? with _ | ⟨colour, rest⟩ <;> rfl

theorem perform_dup : dup.perform s =
    match s.stack.pop? with
    | some (value, rest) => .ok .next { s with stack := (rest.push value).push value }
    | none               => .error (.ofCause s.location .emptyStack) s := by
  rw [perform, Action.dup, bind_assoc, Action.pop_bind]
  rcases s.stack.pop? with _ | ⟨value, rest⟩ <;> rfl

theorem perform_add : add.perform s =
    match s.stack.popTwo? with
    | some (a, b, rest) => .ok .next { s with stack := rest.push (a + b) }
    | none              => .error (.ofCause s.location (.tooFewCells 2 s.stack.size)) s := by
  simp only [perform, Action.add, Action.requireDepth, bind, EStateM.bind, Action.get_apply]
  by_cases hsize : s.stack.size < 2
  · simp only [(s.stack.popTwo?_eq_none_iff).mpr hsize, hsize, if_true, Action.fail]
  · obtain ⟨⟨a, b, rest⟩, htwo⟩ :=
      Option.ne_none_iff_exists'.mp (mt (s.stack.popTwo?_eq_none_iff).mp hsize)
    obtain ⟨t, hupper, hlower⟩ := Stack.pop?_of_popTwo? htwo
    simp only [htwo, hsize, if_false, pure, EStateM.pure, Action.pop, Stack.pop, hupper, hlower]
    rfl

theorem perform_colon : colon.perform s =
    if s.mode = .compile then .error (.ofCause s.location .nestedColon) s
    else .ok .next s.openDefinition := by
  simp only [perform, Action.beginDefinition, bind, EStateM.bind, Action.get_apply]
  by_cases h : s.mode = .compile
  · simp only [h, if_true]
    rfl
  · simp only [h, if_false]
    rfl

theorem perform_semicolon : semicolon.perform s =
    if s.mode = .immediate then
      .error (.ofCause s.location .unexpectedSemicolon) s.closeDefinition
    else .ok .next s.closeDefinition := by
  simp only [perform, Action.endDefinition, bind, EStateM.bind, Action.get_apply]
  by_cases h : s.mode = .immediate
  · simp only [h, if_true, Action.fail]
    rfl
  · simp only [h, if_false]
    rfl

/-! ## Computing

Most primitives compute: what they do is a function of the parameter stack alone, except that `words`
prints what the dictionary holds. The others work on definitions.
-/

/-- Does the primitive work on definitions? -/
def defines : Primitive → Bool
  | hide | reveal | colon | semicolon => true
  | _                                 => false

theorem ne_semicolon_of_defines {p : Primitive} (hp : p.defines = false) : p ≠ .semicolon := by
  rintro rfl
  cases hp

/-- What a computing primitive does. -/
structure Effect where
  /-- The parameter stack afterwards. -/
  stack  : Stack Cell
  /-- What is printed. -/
  text   : Option String := none
  /-- The background colour that is chosen. -/
  colour : Option Cell := none
  /-- The mode that is turned to. -/
  mode   : Option Mode := none
  /-- What is asked of whoever ran the primitive. -/
  flow   : Flow := .next

/-- The session after an effect. -/
def Effect.apply (e : Effect) (s : Session) : Session :=
  { s with
    stack      := e.stack
    output     := (e.text.map fun text => (s.emit text).output).getD s.output
    background := e.colour <|> s.background
    mode       := e.mode.getD s.mode }

/-- The effect of a computing primitive, unless the stack holds too few cells. -/
def effect? (d : Dictionary) (stack : Stack Cell) : Primitive → Option Effect
  | exit         => some { stack, flow := .exit }
  | literal      => some { stack, flow := .literal }
  | branch       => some { stack, flow := .skip }
  | zeroBranch   => stack.pop?.map fun (flag, rest) =>
      { stack := rest, flow := if flag = 0 then .skip else .next }
  | leftBracket  => some { stack, mode := some .immediate }
  | rightBracket => some { stack, mode := some .compile }
  | printStack   => some { stack, text := some (Session.stackText { stack }) }
  | print        => stack.pop?.map fun (value, rest) => { stack := rest, text := some value.text }
  | add          => stack.popTwo?.map fun (a, b, rest) => { stack := rest.push (a + b) }
  | dup          => stack.pop?.map fun (value, rest) => { stack := (rest.push value).push value }
  | words        => some { stack, text := some (" ".intercalate d.visibleNames) }
  | background   => stack.pop?.map fun (colour, rest) => { stack := rest, colour := some colour }
  | hide | reveal | colon | semicolon => none

/-- How many cells the primitive takes off the parameter stack. -/
def arity : Primitive → Nat
  | add                                   => 2
  | zeroBranch | print | dup | background => 1
  | _                                     => 0

/-- What the primitive complains of when it fails on a stack of `depth` cells. -/
def complaint (depth : Nat) : Primitive → Cause
  | add       => .tooFewCells 2 depth
  | colon     => .nestedColon
  | semicolon => .unexpectedSemicolon
  | _         => .emptyStack

/-- A computing primitive has its effect, or it fails and changes nothing. -/
theorem perform_of_computes {p : Primitive} (hp : p.defines = false) :
    p.perform s =
      match p.effect? s.dictionary s.stack with
      | some e => .ok e.flow (e.apply s)
      | none   => .error (.ofCause s.location (p.complaint s.stack.size)) s := by
  cases p
  case hide | reveal | colon | semicolon => cases hp
  case zeroBranch => rw [perform_zeroBranch]; cases h : s.stack.pop? <;> simp [effect?, h] <;> rfl
  case print      => rw [perform_print]; cases h : s.stack.pop? <;> simp [effect?, h] <;> rfl
  case background => rw [perform_background]; cases h : s.stack.pop? <;> simp [effect?, h] <;> rfl
  case dup        => rw [perform_dup]; cases h : s.stack.pop? <;> simp [effect?, h] <;> rfl
  case add        => rw [perform_add]; cases h : s.stack.popTwo? <;> simp [effect?, h] <;> rfl
  all_goals rfl

/-- A computing primitive has no effect exactly where the stack holds too few cells. -/
theorem effect?_eq_none_iff {p : Primitive} (hp : p.defines = false) (d : Dictionary)
    (stack : Stack Cell) : p.effect? d stack = none ↔ stack.size < p.arity := by
  have hpop : stack.pop? = none ↔ stack.size < 1 := by
    rw [stack.pop?_eq_none_iff, ← List.length_eq_zero_iff, Stack.length_toList, Nat.lt_one_iff]
  cases p
  case hide | reveal | colon | semicolon => cases hp
  case add => simpa [effect?, arity] using stack.popTwo?_eq_none_iff
  case zeroBranch | print | background | dup => simpa [effect?, arity] using hpop
  all_goals simp [effect?, arity]

/-! ## Succeeding and failing -/

/-- What a primitive that succeeds has done. -/
inductive Performs (s : Session) : Primitive → Flow → Session → Prop where
  | computes {p : Primitive} {e : Effect} : p.defines = false →
      p.effect? s.dictionary s.stack = some e → Performs s p e.flow (e.apply s)
  | hide : Performs s .hide .next s.hideLast
  | reveal : Performs s .reveal .next s.revealLast
  | colon : s.mode ≠ .compile → Performs s .colon .next s.openDefinition
  | semicolon : s.mode ≠ .immediate → Performs s .semicolon .next s.closeDefinition

/-- Where a primitive fails: for want of cells, or at `:` and `;` in the wrong mode. -/
def Refuses (s : Session) : Primitive → Prop
  | colon     => s.mode = .compile
  | semicolon => s.mode = .immediate
  | p         => s.stack.size < p.arity

theorem performs_of_perform {s t : Session} {p : Primitive} {flow : Flow}
    (h : p.perform s = .ok flow t) : Performs s p flow t := by
  by_cases hp : p.defines = false
  · rw [perform_of_computes s hp] at h
    split at h
    · next e he => cases h; exact .computes hp he
    · cases h
  · cases p
    case hide => cases h; exact .hide
    case reveal => cases h; exact .reveal
    case colon =>
      rw [perform_colon] at h
      split at h
      · cases h
      · next hmode => cases h; exact .colon hmode
    case semicolon =>
      rw [perform_semicolon] at h
      split at h
      · cases h
      · next hmode => cases h; exact .semicolon hmode
    all_goals exact absurd rfl hp

/-- A failing primitive leaves the session as it was, except for `;`, which does its work first. -/
theorem perform_error {s t : Session} {p : Primitive} {f : Failure}
    (h : p.perform s = .error f t) :
    p.Refuses s ∧ f = .ofCause s.location (p.complaint s.stack.size) ∧
      t = if p = .semicolon then s.closeDefinition else s := by
  by_cases hp : p.defines = false
  · rw [perform_of_computes s hp] at h
    split at h
    · cases h
    · next hnone =>
      cases h
      have hsize := (effect?_eq_none_iff hp _ _).mp hnone
      cases p
      case hide | reveal | colon | semicolon => cases hp
      all_goals exact ⟨hsize, rfl, rfl⟩
  · cases p
    case hide | reveal => cases h
    case colon =>
      rw [perform_colon] at h
      split at h
      · next hmode => cases h; exact ⟨hmode, rfl, rfl⟩
      · cases h
    case semicolon =>
      rw [perform_semicolon] at h
      split at h
      · next hmode => cases h; exact ⟨hmode, rfl, rfl⟩
      · cases h
    all_goals exact absurd rfl hp

/-- What is left of a session by a primitive, whether it succeeds or fails. -/
inductive Leaves (s : Session) : Primitive → Session → Prop where
  | nothing {p : Primitive} : p ≠ .semicolon → Leaves s p s
  | computes {p : Primitive} {e : Effect} : p.defines = false →
      p.effect? s.dictionary s.stack = some e → Leaves s p (e.apply s)
  | hide : Leaves s .hide s.hideLast
  | reveal : Leaves s .reveal s.revealLast
  | colon : Leaves s .colon s.openDefinition
  | semicolon : Leaves s .semicolon s.closeDefinition

theorem leaves_of_perform {s t : Session} {p : Primitive} (h : Outcome.session (p.perform s) = t) :
    Leaves s p t := by
  subst h
  rcases h : p.perform s with ⟨flow, t⟩ | ⟨f, t⟩
  · cases performs_of_perform h with
    | computes hp he => exact .computes hp he
    | hide => exact .hide
    | reveal => exact .reveal
    | colon => exact .colon
    | semicolon => exact .semicolon
  · obtain ⟨-, -, rfl⟩ := perform_error h
    by_cases hp : p = .semicolon
    · subst hp
      exact .semicolon
    · rw [if_neg hp]
      exact .nothing hp

/-- No primitive looks at the return addresses. -/
theorem perform_withReturns (p : Primitive) (returns : List Nat) :
    p.perform (s.withReturns returns) =
      Outcome.mapSession (·.withReturns returns) (p.perform s) := by
  by_cases hp : p.defines = false
  · rw [perform_of_computes _ hp, perform_of_computes _ hp]
    rw [Session.dictionary_withReturns, Session.stack_withReturns]
    split <;> rfl
  · cases p
    case hide | reveal => rfl
    case colon =>
      rw [perform_colon, perform_colon, Session.mode_withReturns]
      split <;> rfl
    case semicolon =>
      rw [perform_semicolon, perform_semicolon, Session.mode_withReturns]
      split <;> rfl
    all_goals exact absurd rfl hp

/-- No primitive touches what belongs to the running calls and to the line. -/
theorem perform_keeps (p : Primitive) : s.Keeps (Outcome.session (p.perform s)) := by
  generalize h : Outcome.session (p.perform s) = t
  cases leaves_of_perform h <;> exact ⟨rfl, rfl, rfl, rfl⟩

/-- No primitive but `;` moves the cursor. -/
theorem cursor_of_perform {s t : Session} {p : Primitive} {flow : Flow} (hp : p ≠ .semicolon)
    (h : p.perform s = .ok flow t) : t.cursor = s.cursor := by
  cases performs_of_perform h with
  | semicolon => exact absurd rfl hp
  | computes | hide | reveal | colon => rfl

/-- Does the primitive steer the flow of control? -/
def steers : Primitive → Bool
  | exit | literal | branch | zeroBranch => true
  | _                                    => false

theorem flow_of_perform {s t : Session} {p : Primitive} {flow : Flow} (hp : p.steers = false)
    (h : p.perform s = .ok flow t) : flow = .next := by
  cases performs_of_perform h with
  | hide | reveal | colon | semicolon => rfl
  | computes hdef he =>
    cases p
    case exit | literal | branch | zeroBranch => cases hp
    case hide | reveal | colon | semicolon => cases hdef
    case leftBracket | rightBracket | printStack | words => cases he; rfl
    case print | add | dup | background =>
      obtain ⟨taken, _, rfl⟩ := Option.map_eq_some_iff.mp he
      rfl

/-- Only `exit` asks for a return. -/
theorem eq_exit_of_perform {s t : Session} {p : Primitive}
    (h : p.perform s = .ok .exit t) : p = .exit := by
  by_cases hp : p.steers = false
  · cases flow_of_perform hp h
  · cases p
    case exit => rfl
    case literal | branch => cases h
    case zeroBranch =>
      rw [perform_zeroBranch] at h
      split at h
      · next flag rest _ =>
        injection h with hflow
        split at hflow <;> cases hflow
      · cases h
    all_goals exact absurd rfl hp

end Primitive

end MiniForth
