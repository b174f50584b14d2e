import MiniForth.Proofs.Performing

/-!
# What a session is surrounded by

Words take cells from the top of the parameter stack and add to the end of the output. What lies
deeper and what was printed earlier is not looked at, as long as no word runs out of cells and none
shows the whole stack. A session that works inside of such surroundings does what it does without
them.

`Surroundings` says what is around a session, `Session.Within` relates the session to the one that has
it around, and `Surroundings.Suits` says which primitives do not look at it.

* `Within.dispatch`: one cell of compiled code.
* `Within.run?`: a call.
* `Within.interpretAll?`: the tokens of a line.
-/

namespace MiniForth

/-! ## Cells underneath -/

namespace Stack

variable {α : Type}

/-- The stack with other cells under its bottom. -/
def above (s : Stack α) (base : List α) : Stack α := ⟨base.toArray ++ s.cells⟩

@[simp] theorem toList_above (s : Stack α) (base : List α) :
    (s.above base).toList = base ++ s.toList := by
  simp [above, toList]

@[simp] theorem above_nil (s : Stack α) : s.above [] = s := by
  simp [above]

theorem push_above (s : Stack α) (base : List α) (value : α) :
    (s.push value).above base = (s.above base).push value := by
  simp [above, push]

theorem ext_toList {s t : Stack α} (h : s.toList = t.toList) : s = t := by
  cases s
  exact congrArg Stack.mk (Array.toList_inj.mp h)

theorem eq_push_of_pop? {s rest : Stack α} {value : α} (h : s.pop? = some (value, rest)) :
    s = rest.push value := by
  apply ext_toList
  rw [toList_of_pop? h, toList_push]

theorem pop?_above {s rest : Stack α} {value : α} (h : s.pop? = some (value, rest))
    (base : List α) : (s.above base).pop? = some (value, rest.above base) := by
  rw [eq_push_of_pop? h, push_above, pop?_push]

theorem popTwo?_above {s rest : Stack α} {lower upper : α}
    (h : s.popTwo? = some (lower, upper, rest)) (base : List α) :
    (s.above base).popTwo? = some (lower, upper, rest.above base) := by
  obtain ⟨t, hupper, hlower⟩ := pop?_of_popTwo? h
  simp only [popTwo?, pop?_above hupper, pop?_above hlower, Option.map_some]

end Stack

namespace Primitive

/-- The effect with other cells under the stack that it leaves. -/
def Effect.above (e : Effect) (base : List Cell) : Effect := { e with stack := e.stack.above base }

/-- A primitive that has an effect has the same one above other cells, unless it shows them. -/
theorem effect?_above {p : Primitive} (hp : p ≠ .printStack) {d : Dictionary} {stack : Stack Cell}
    {e : Effect} (he : p.effect? d stack = some e) (base : List Cell) :
    p.effect? d (stack.above base) = some (e.above base) := by
  cases p
  case printStack => exact absurd rfl hp
  case hide | reveal | colon | semicolon => cases he
  case exit | literal | branch | leftBracket | rightBracket | words => cases he; rfl
  case zeroBranch | print | background =>
    obtain ⟨⟨value, rest⟩, hpop, rfl⟩ := Option.map_eq_some_iff.mp he
    rw [effect?, Stack.pop?_above hpop]
    rfl
  case dup =>
    obtain ⟨⟨value, rest⟩, hpop, rfl⟩ := Option.map_eq_some_iff.mp he
    rw [effect?, Stack.pop?_above hpop, Option.map_some]
    simp only [Effect.above, Stack.push_above]
  case add =>
    obtain ⟨⟨a, b, rest⟩, htwo, rfl⟩ := Option.map_eq_some_iff.mp he
    rw [effect?, Stack.popTwo?_above htwo, Option.map_some]
    simp only [Effect.above, Stack.push_above]

end Primitive

/-! ## Output in front -/

/-- Two texts with a space between them, or the one that is not empty. -/
def Text.joined (before after : String) : String :=
  if before = "" then after else if after = "" then before else before ++ " " ++ after

namespace Text

@[simp] theorem joined_empty_left (text : String) : joined "" text = text := if_pos rfl

@[simp] theorem joined_empty_right (text : String) : joined text "" = text := by
  rw [joined]
  split
  · next h => exact h.symm
  · exact if_pos rfl

theorem joined_of_ne_empty {before after : String} (hbefore : before ≠ "") (hafter : after ≠ "") :
    joined before after = before ++ " " ++ after := by
  rw [joined, if_neg hbefore, if_neg hafter]

theorem joined_assoc (a b c : String) : joined (joined a b) c = joined a (joined b c) := by
  by_cases ha : a = ""
  · subst ha
    rw [joined_empty_left, joined_empty_left]
  by_cases hb : b = ""
  · subst hb
    rw [joined_empty_right, joined_empty_left]
  by_cases hc : c = ""
  · subst hc
    rw [joined_empty_right, joined_empty_right]
  · have hab : a ++ " " ++ b ≠ "" := by simp [ha]
    have hbc : b ++ " " ++ c ≠ "" := by simp [hb]
    rw [joined_of_ne_empty ha hb, joined_of_ne_empty hb hc, joined_of_ne_empty hab hc,
      joined_of_ne_empty ha hbc]
    simp only [String.append_assoc]

end Text

theorem Session.output_emit (s : Session) {text : String} (h : s.output = "" ∨ text ≠ "") :
    (s.emit text).output = Text.joined s.output text := by
  show (if s.output.isEmpty then text else _) = _
  by_cases hs : s.output = ""
  · rw [if_pos (String.isEmpty_iff.mpr hs), hs, Text.joined_empty_left]
  · rw [if_neg (by simpa using hs), Text.joined_of_ne_empty hs (h.resolve_left hs)]

theorem Cell.text_ne_empty (c : Cell) : c.text ≠ "" := by
  have hdigits (n : Nat) : Decimal.ofNat n ≠ "" := by
    intro h
    exact Nat.toDigits_ne_nil (String.ofList_eq_empty_iff.mp h)
  rw [Cell.text]
  rcases c.toInt with n | n
  · exact hdigits n
  · simp [Decimal.ofInt]

theorem Session.stackText_ne_empty (s : Session) : s.stackText ≠ "" := by
  simp [stackText]

/-- Only the list of the visible words may be printed as nothing. -/
theorem Primitive.text_of_effect? {p : Primitive} {d : Dictionary} {stack : Stack Cell} {e : Effect}
    {text : String} (he : p.effect? d stack = some e) (htext : e.text = some text) :
    text ≠ "" ∨ p = .words ∧ text = " ".intercalate d.visibleNames := by
  cases p
  case hide | reveal | colon | semicolon => cases he
  case exit | literal | branch | leftBracket | rightBracket => cases he; cases htext
  case zeroBranch | background | dup | add =>
    obtain ⟨taken, _, rfl⟩ := Option.map_eq_some_iff.mp he
    cases htext
  case words => cases he; cases htext; exact .inr ⟨rfl, rfl⟩
  case printStack => cases he; cases htext; exact .inl (Session.stackText_ne_empty _)
  case print =>
    obtain ⟨⟨value, rest⟩, _, rfl⟩ := Option.map_eq_some_iff.mp he
    cases htext
    exact .inl value.text_ne_empty

/-! ## Surroundings -/

/-- What there is around a session that it does not look at. -/
structure Surroundings where
  /-- The cells under its parameter stack. -/
  base           : List Cell := []
  /-- What the line has printed before. -/
  printed        : String := ""
  /-- The background colour that the line has chosen before. -/
  colour         : Option Cell := none
  /-- How many line breaks are missing around it that the session itself has counted. -/
  breaks         : Nat := 0
  /-- Are the outputs compared? -/
  comparesOutput : Prop := True
  /-- Do both sessions process the same line, so that their tokens stand at the same places? -/
  sameLine       : Prop := True

namespace Surroundings

/-- Reports of the same failure. -/
structure Reports (c : Surroundings) (f g : Failure) : Prop where
  kind     : g.kind = f.kind
  message  : g.message = f.message
  location : c.sameLine → g.location = f.location

/-- The primitive does not look at the surroundings of the session. -/
structure Suits (c : Surroundings) (s : Session) (p : Primitive) : Prop where
  /-- It finds enough cells in the session itself. -/
  fed    : c.base = [] ∨ p.arity ≤ s.stack.size
  /-- It does not show the cells underneath. -/
  silent : c.comparesOutput → p = .printStack → c.base = []
  /-- A list of no words would leave a space behind what was printed before. -/
  lists  : c.comparesOutput → p = .words →
    c.printed = "" ∨ " ".intercalate s.dictionary.visibleNames ≠ ""

end Surroundings

variable {c : Surroundings}

/-- The second session is the first one in these surroundings. -/
inductive Session.Within (c : Surroundings) (s : Session) : Session → Prop where
  | intro {output : String} {location : Option Location} {lines : Nat} :
      (c.comparesOutput → output = Text.joined c.printed s.output) →
      (c.sameLine → location = s.location) → lines + c.breaks = s.lines →
      Within c s
        { s with
          stack      := s.stack.above c.base
          background := s.background <|> c.colour
          output, location, lines }

theorem Session.within_of_eq {s t : Session} (hstack : t.stack = s.stack.above c.base)
    (hbackground : t.background = (s.background <|> c.colour))
    (houtput : c.comparesOutput → t.output = Text.joined c.printed s.output)
    (hplace : c.sameLine → t.location = s.location) (hlines : t.lines + c.breaks = s.lines)
    (hrest : t =
      { s with
        stack := t.stack, background := t.background, output := t.output, location := t.location
        lines := t.lines }) : s.Within c t := by
  rw [hrest, hstack, hbackground]
  exact .intro houtput hplace hlines

/-- Outcomes of the same kind, in sessions of which the second is the first in these surroundings. -/
inductive Outcome.Within {α : Type} (c : Surroundings) : Outcome α → Outcome α → Prop where
  | ok {a : α} {s t : Session} : s.Within c t → Within c (.ok a s) (.ok a t)
  | error {f g : Failure} {s t : Session} : s.Within c t → c.Reports f g →
      Within c (.error f s) (.error g t)

/-- Where there is an answer, the other one is one too. -/
theorem exists_of_rel {α β : Type} {r : α → β → Prop} {a : α} {b? : Option β}
    (h : Option.Rel r (some a) b?) : ∃ b, b? = some b ∧ r a b := by
  cases h with
  | some hab => exact ⟨_, rfl, hab⟩

theorem rel_map {α β γ δ : Type} {r : α → β → Prop} {r' : γ → δ → Prop} {f : α → γ} {g : β → δ}
    {a? : Option α} {b? : Option β} (h : Option.Rel r a? b?) (hr : ∀ a b, r a b → r' (f a) (g b)) :
    Option.Rel r' (a?.map f) (b?.map g) := by
  cases h with
  | some hab => exact .some (hr _ _ hab)
  | none => exact .none

theorem Surroundings.Reports.eq {f g : Failure} (h : c.Reports f g) (hsame : c.sameLine) :
    g = f := by
  obtain ⟨hkind, hmessage, hlocation⟩ := h
  obtain ⟨location, kind, message⟩ := f
  obtain rfl : g.kind = kind := hkind
  obtain rfl : g.message = message := hmessage
  obtain rfl : g.location = location := hlocation hsame
  rfl

theorem Surroundings.Reports.withLocation {f g : Failure} (h : c.Reports f g)
    {l l' : Option Location} (hl : c.sameLine → l' = l) :
    c.Reports (f.withLocation l) (g.withLocation l') := by
  refine ⟨h.kind, h.message, ?_⟩
  intro hsame
  show (g.location <|> l') = (f.location <|> l)
  rw [h.location hsame, hl hsame]

namespace Session.Within

variable {s t : Session}

/-! ### What is the same -/

theorem stack (h : s.Within c t) : t.stack = s.stack.above c.base := by cases h; rfl

theorem returns (h : s.Within c t) : t.returns = s.returns := by cases h; rfl

theorem code (h : s.Within c t) : t.code = s.code := by cases h; rfl

theorem cursor (h : s.Within c t) : t.cursor = s.cursor := by cases h; rfl

theorem dictionary (h : s.Within c t) : t.dictionary = s.dictionary := by cases h; rfl

theorem mode (h : s.Within c t) : t.mode = s.mode := by cases h; rfl

theorem phase (h : s.Within c t) : t.phase = s.phase := by cases h; rfl

theorem pending (h : s.Within c t) : t.pending = s.pending := by cases h; rfl

theorem location (h : s.Within c t) (hsame : c.sameLine) : t.location = s.location := by
  cases h with
  | intro _ hplace => exact hplace hsame

theorem reports (h : s.Within c t) (cause : Cause) :
    c.Reports (.ofCause s.location cause) (.ofCause t.location cause) :=
  ⟨rfl, rfl, h.location⟩

theorem fails {α : Type} (h : s.Within c t) (cause : Cause) :
    Outcome.Within (α := α) c (.error (.ofCause s.location cause) s)
      (.error (.ofCause t.location cause) t) :=
  .error h (h.reports cause)

/-! ### What changes a session -/

/-- A change that neither looks at the surroundings nor touches them is the same inside of them. -/
theorem map {g : Session → Session}
    (hg : ∀ u stack background output location lines,
      g { u with stack, background, output, location, lines } =
        { g u with stack, background, output, location, lines }) (h : s.Within c t) :
    (g s).Within c (g t) := by
  have hown : g s =
      { g s with
        stack := s.stack, background := s.background, output := s.output, location := s.location
        lines := s.lines } := hg s _ _ _ _ _
  have hstack : (g s).stack = s.stack := by rw [hown]
  have hbackground : (g s).background = s.background := by rw [hown]
  have houtput : (g s).output = s.output := by rw [hown]
  have hlocation : (g s).location = s.location := by rw [hown]
  have hlines : (g s).lines = s.lines := by rw [hown]
  cases h with
  | @intro output location lines hjoined hplace hcount =>
    apply within_of_eq
    all_goals rw [hg s (s.stack.above c.base) (s.background <|> c.colour) output location lines]
    · rw [hstack]
    · rw [hbackground]
    · rwa [houtput]
    · rwa [hlocation]
    · rwa [hlines]

theorem push (h : s.Within c t) (value : Cell) : (s.push value).Within c (t.push value) := by
  cases h with
  | intro houtput hplace hlines =>
    have hstack := s.stack.push_above c.base value
    simp only [Session.push, ← hstack]
    exact .intro houtput hplace hlines

theorem skipCell (h : s.Within c t) : s.skipCell.Within c t.skipCell :=
  h.map (g := Session.skipCell) fun _ _ _ _ _ _ => rfl

theorem enter (h : s.Within c t) (entry : Nat) : (s.enter entry).Within c (t.enter entry) :=
  h.map (g := (·.enter entry)) fun _ _ _ _ _ _ => rfl

theorem retreat (h : s.Within c t) : s.retreat.Within c t.retreat := by
  cases h with
  | intro houtput hplace hlines =>
    simp only [Session.retreat]
    split <;> exact .intro houtput hplace hlines

theorem abandon (h : s.Within c t) : s.abandon.Within c t.abandon :=
  h.map (g := Session.abandon) fun _ _ _ _ _ _ => rfl

theorem compile (h : s.Within c t) (cell : Cell) : (s.compile cell).Within c (t.compile cell) :=
  h.map (g := (·.compile cell)) fun _ _ _ _ _ _ => rfl

theorem openDefinition (h : s.Within c t) : s.openDefinition.Within c t.openDefinition :=
  h.map (g := Session.openDefinition) fun _ _ _ _ _ _ => rfl

theorem nameDefinition (h : s.Within c t) (name : String) :
    (s.nameDefinition name).Within c (t.nameDefinition name) :=
  h.map (g := (·.nameDefinition name)) fun _ _ _ _ _ _ => rfl

theorem hideLast (h : s.Within c t) : s.hideLast.Within c t.hideLast :=
  h.map (g := Session.hideLast) fun _ _ _ _ _ _ => rfl

theorem revealLast (h : s.Within c t) : s.revealLast.Within c t.revealLast :=
  h.map (g := Session.revealLast) fun _ _ _ _ _ _ => rfl

theorem closeDefinition (h : s.Within c t) : s.closeDefinition.Within c t.closeDefinition :=
  h.map (g := Session.closeDefinition) fun _ _ _ _ _ _ => rfl

theorem withPending (h : s.Within c t) (pending : Pending) :
    Session.Within c { s with pending } { t with pending } :=
  h.map (g := ({ · with pending })) fun _ _ _ _ _ _ => rfl

/-- What is printed comes behind what was printed before. -/
theorem emit (h : s.Within c t) {text text' : String}
    (htext : c.comparesOutput → text' = text ∧ (c.printed = "" ∨ text ≠ "")) :
    (s.emit text).Within c (t.emit text') := by
  cases h with
  | @intro output _ _ houtput hplace hlines =>
    refine .intro ?_ hplace hlines
    intro hcompares
    obtain ⟨rfl, hprinted | hne⟩ := htext hcompares
    · -- Nothing was printed before, so both sessions have printed the same.
      have hsame := houtput hcompares
      rw [hprinted, Text.joined_empty_left] at hsame ⊢
      rw [hsame]
      rfl
    · show (Session.emit { s with output } text').output = _
      rw [Session.output_emit _ (.inr hne), Session.output_emit s (.inr hne), houtput hcompares,
        Text.joined_assoc]

theorem apply (h : s.Within c t) {e : Primitive.Effect}
    (htext : c.comparesOutput → ∀ text, e.text = some text → c.printed = "" ∨ text ≠ "") :
    (e.apply s).Within c ((e.above c.base).apply t) := by
  obtain ⟨stack, text, colour, mode, flow⟩ := e
  have hquiet : Session.Within c
      (Primitive.Effect.apply { stack, colour, mode, flow } s)
      (Primitive.Effect.apply { stack := stack.above c.base, colour, mode, flow } t) := by
    cases h with
    | intro houtput hplace hlines =>
      rcases colour with _ | colour <;> exact .intro houtput hplace hlines
  rcases text with _ | text
  · exact hquiet
  · exact hquiet.emit fun hcompares => ⟨rfl, htext hcompares text rfl⟩

/-! ### Primitives and what they ask for -/

theorem perform (h : s.Within c t) {p : Primitive} (hsuits : c.Suits s p) :
    Outcome.Within c (p.perform s) (p.perform t) := by
  by_cases hp : p.defines = false
  · by_cases hshows : p = .printStack
    · subst hshows
      rw [Primitive.perform_printStack, Primitive.perform_printStack]
      refine .ok (h.emit fun hcompares => ⟨?_, .inr s.stackText_ne_empty⟩)
      simp only [Session.stackText, h.stack, hsuits.silent hcompares rfl, Stack.above_nil]
    · rw [Primitive.perform_of_computes s hp, Primitive.perform_of_computes t hp, h.stack,
        h.dictionary]
      rcases he : p.effect? s.dictionary s.stack with _ | e
      · -- The primitive is short of cells in `s`, so there are none underneath.
        have hbase : c.base = [] :=
          hsuits.fed.resolve_right (Nat.not_le_of_lt ((Primitive.effect?_eq_none_iff hp _ _).mp he))
        rw [hbase, Stack.above_nil, he]
        exact h.fails _
      · rw [Primitive.effect?_above hshows he]
        refine .ok (h.apply ?_)
        intro hcompares text htext
        rcases Primitive.text_of_effect? he htext with hne | ⟨hlists, rfl⟩
        · exact .inr hne
        · exact hsuits.lists hcompares hlists
  · cases p
    case hide => exact .ok h.hideLast
    case reveal => exact .ok h.revealLast
    case colon =>
      rw [Primitive.perform_colon, Primitive.perform_colon, h.mode]
      split
      · exact h.fails _
      · exact .ok h.openDefinition
    case semicolon =>
      rw [Primitive.perform_semicolon, Primitive.perform_semicolon, h.mode]
      split
      · exact .error h.closeDefinition (h.reports _)
      · exact .ok h.closeDefinition
    all_goals exact absurd rfl hp

theorem fetch (h : s.Within c t) : Outcome.Within c (Action.fetch s) (Action.fetch t) := by
  rw [Action.fetch, Action.fetch, h.code, h.cursor]
  split
  · exact .ok h.skipCell
  · exact h.fails _

theorem leave (h : s.Within c t) : Outcome.Within c (Action.leave s) (Action.leave t) := by
  rw [Action.leave, Action.leave, h.returns]
  split
  · exact h.fails _
  · exact .ok h.retreat

end Session.Within

theorem Outcome.Within.bind {α β : Type} {m : Action α} {next : α → Action β} {s t : Session}
    (h : Outcome.Within c (m s) (m t))
    (hnext : ∀ a u v, u.Within c v → Outcome.Within c (next a u) (next a v)) :
    Outcome.Within c ((m >>= next) s) ((m >>= next) t) := by
  simp only [Bind.bind, EStateM.bind]
  generalize m s = o, m t = o' at h
  cases h with
  | ok huv => exact hnext _ _ _ huv
  | error huv hreports => exact .error huv hreports

namespace Session.Within

variable {s t : Session}

theorem onCode (h : s.Within c t) (flow : Flow) :
    Outcome.Within c (flow.onCode s) (flow.onCode t) := by
  cases flow with
  | next => exact .ok h
  | skip => exact .ok h.skipCell
  | literal => exact h.fetch.bind fun value u v huv => .ok (huv.push value)
  | exit => exact h.leave

theorem onTokens (h : s.Within c t) (flow : Flow) :
    Outcome.Within c (flow.onTokens s) (flow.onTokens t) := by
  cases flow with
  | next => exact .ok h
  | skip | literal => exact .ok (h.withPending _)
  | exit => exact h.leave

/-! ### Compiled code -/

/-- A cell of code that does not look at the surroundings does the same inside of them. -/
theorem dispatch (h : s.Within c t) (hsuits : s.DispatchesOnly c.Suits) :
    Outcome.Within c (dispatch s) (dispatch t) := by
  rw [dispatch_eq, dispatch_eq, h.code, h.cursor, h.dictionary]
  rcases hcell : s.code.get? s.cursor with _ | cell
  · exact h.fails _
  · rcases hword : (s.dictionary.resolve? cell).map Word.behavior with _ | ⟨p⟩ | ⟨entry⟩
    · simp only [hword]
      exact .error h.skipCell (h.reports _)
    · have hup : s.upcoming? = some (.primitive p) := by
        rw [Session.upcoming?, behaviorAt?, hcell, Option.bind_some, hword]
      simp only [hword]
      have hperform : Outcome.Within c (p.perform s.skipCell) (p.perform t.skipCell) :=
        h.skipCell.perform ⟨(hsuits p hup).fed, (hsuits p hup).silent, (hsuits p hup).lists⟩
      exact hperform.bind fun flow u v huv => huv.onCode flow
    · simp only [hword]
      exact .ok (h.skipCell.enter entry)

end Session.Within

/-- Calls that have met the same failure so far, if any, and run in sessions of which the second is the
first in these surroundings. -/
structure Call.Within (c : Surroundings) (d e : Call) : Prop where
  session : d.session.Within c e.session
  failure : Option.Rel c.Reports d.failure e.failure

namespace Call.Within

variable {d e : Call}

theorem isOver (h : d.Within c e) : e.isOver = d.isOver := by
  rw [Call.isOver, h.session.returns, Call.isOver]

theorem turn (h : d.Within c e) (hsuits : d.session.DispatchesOnly c.Suits) :
    d.turn.Within c e.turn := by
  have hdispatch := h.session.dispatch hsuits
  rw [Call.turn, Call.turn]
  generalize MiniForth.dispatch d.session = o, MiniForth.dispatch e.session = o' at hdispatch
  cases hdispatch with
  | ok huv => exact ⟨huv, h.failure⟩
  | @error f g u v huv hreports =>
    refine ⟨?_, ?_⟩
    · simp only [hreports.kind]
      split
      · exact huv.retreat
      · exact huv.abandon
    · -- The first failure stays.
      have hfailure := h.failure
      generalize d.failure = first, e.failure = first' at hfailure ⊢
      cases hfailure with
      | some hfirst => exact .some hfirst
      | none => exact .some hreports

theorem finish? (h : d.Within c e) (hall : d.Always (Session.DispatchesOnly c.Suits)) (fuel : Nat) :
    Option.Rel (Call.Within c) (d.finish? fuel) (e.finish? fuel) := by
  induction fuel generalizing d e with
  | zero =>
    rw [Call.finish?, Call.finish?, h.isOver]
    split
    · exact .some h
    · exact .none
  | succ fuel ih =>
    rw [Call.finish?, Call.finish?, h.isOver]
    rcases hd : d.isOver
    · have hturn := h.turn (hall.now hd)
      simpa using ih hturn (hall.turns (.single hd))
    · simpa using Option.Rel.some h

theorem outcome (h : d.Within c e) : Outcome.Within c d.outcome e.outcome := by
  have hfailure := h.failure
  rw [Call.outcome, Call.outcome]
  generalize d.failure = first, e.failure = first' at hfailure ⊢
  cases hfailure with
  | some hreports => exact .error h.session hreports
  | none => exact .ok h.session

end Call.Within

/-! ### Tokens and lines -/

namespace Session.Within

variable {s t : Session}

/-- A call whose code does not look at the surroundings answers the same inside of them. -/
theorem run? (h : s.Within c t) {entry : Nat}
    (hall : (Call.start s entry).Always (DispatchesOnly c.Suits)) (fuel : Nat) :
    Option.Rel (Outcome.Within c) (s.run? fuel entry) (t.run? fuel entry) := by
  have hstart : (Call.start s entry).Within c (Call.start t entry) := ⟨h.enter entry, .none⟩
  exact rel_map (hstart.finish? hall fuel) fun _ _ hde => hde.outcome

theorem lookUp? (h : s.Within c t) {token token' : Token} (htext : token'.text = token.text)
    (hphase : s.phase ≠ .awaitingName) (hpending : s.pending = .nothing)
    (hsuits : s.PerformsOnly c.Suits token) (fuel : Nat) :
    Option.Rel (Outcome.Within c) (s.lookUp? fuel token) (t.lookUp? fuel token') := by
  have hnumber : token'.number? = token.number? := congrArg Numeral.value? htext
  rw [Session.lookUp?, Session.lookUp?, htext, h.dictionary, h.mode]
  rcases hfind : s.dictionary.find? token.text with _ | ⟨index, word⟩
  · simp only [takeNumber_eq, hnumber, htext, h.mode]
    rcases token.number? with _ | value
    · exact .some (h.fails _)
    · refine .some (.ok ?_)
      split
      · exact (h.compile _).compile value
      · exact h.push value
  · by_cases hcompiles : s.mode = .compile ∧ word.immediate = false
    · simp only [if_pos hcompiles]
      exact .some (.ok (h.compile _))
    · have hfind' : t.dictionary.find? token.text = some (index, word) := by
        rw [h.dictionary, hfind]
      have hbehavior := hsuits word (executed?_eq hphase hpending hfind hcompiles)
      simp only [if_neg hcompiles, execute?_of_find? hfind, execute?_of_find? hfind']
      rcases hb : word.behavior with p | entry
      · rw [hb] at hbehavior
        exact .some ((h.perform hbehavior).bind fun flow u v huv => huv.onTokens flow)
      · rw [hb] at hbehavior
        exact h.run? hbehavior fuel

theorem interpret? (h : s.Within c t) {token token' : Token} (htext : token'.text = token.text)
    (hsuits : s.PerformsOnly c.Suits token) (fuel : Nat) :
    Option.Rel (Outcome.Within c) (s.interpret? fuel token) (t.interpret? fuel token') := by
  by_cases hname : s.phase = .awaitingName
  · rw [Session.interpret?, Session.interpret?, if_pos hname, if_pos (h.phase.trans hname), htext]
    exact .some (.ok (h.nameDefinition token.text))
  · have hname' : t.phase ≠ .awaitingName := by rwa [h.phase]
    cases hp : s.pending with
    | nothing =>
      rw [interpret?_of_nothing hname hp, interpret?_of_nothing hname' (h.pending.trans hp)]
      exact h.lookUp? htext hname hp hsuits fuel
    | skip =>
      simp only [Session.interpret?, if_neg hname, if_neg hname', h.pending, hp]
      exact .some (.ok (h.withPending _))
    | literal =>
      have hnumber : token'.number? = token.number? := congrArg Numeral.value? htext
      simp only [Session.interpret?, if_neg hname, if_neg hname', h.pending, hp, pushNumber_eq,
        hnumber, htext]
      rcases token.number? with _ | value
      · exact .some ((h.withPending .nothing).fails _)
      · exact .some (.ok ((h.withPending .nothing).push value))

theorem withLocation (h : s.Within c t) {l l' : Option Location} (hl : c.sameLine → l' = l) :
    Session.Within c { s with location := l } { t with location := l' } := by
  cases h with
  | intro houtput _ hlines => exact .intro houtput hl hlines

/-- Tokens that do not look at the surroundings come to the same inside of them. -/
theorem interpretAll? (h : s.Within c t) {ts ts' : List Token}
    (htexts : ts'.map Token.text = ts.map Token.text) (hplaces : c.sameLine → ts' = ts)
    (hsuits : ∀ s' token, Meets s ts s' token → s'.PerformsOnly c.Suits token) (fuel : Nat) :
    Option.Rel (Outcome.Within c) (s.interpretAll? fuel ts) (t.interpretAll? fuel ts') := by
  induction ts generalizing s t ts' with
  | nil =>
    obtain rfl : ts' = [] := List.map_eq_nil_iff.mp htexts
    exact .some (.ok h)
  | cons token ts ih =>
    obtain ⟨token', ts', rfl, htext, htexts⟩ := List.map_eq_cons_iff.mp htexts
    have hplace : c.sameLine → some token'.location = some token.location := by
      intro hsame
      rw [(List.cons.inj (hplaces hsame)).1]
    have hfirst := (h.withLocation hplace).interpret? htext (hsuits _ _ .head) fuel
    rw [Session.interpretAll?, Session.interpretAll?]
    generalize ho : Session.interpret? fuel { s with location := _ } token = o at hfirst
    generalize Session.interpret? fuel { t with location := _ } token' = o' at hfirst
    cases hfirst with
    | none => exact .none
    | some houtcome =>
      cases houtcome with
      | ok huv =>
        exact ih huv htexts (fun hsame => (List.cons.inj (hplaces hsame)).2)
          fun s' token' hmeets => hsuits s' token' (.tail ho hmeets)
      | error huv hreports =>
        exact .some (.error huv (hreports.withLocation huv.location))

end Session.Within

end MiniForth
