import MiniForth.Proofs.Turns
import MiniForth.Session.Line

/-!
# What a token does

`Session.interpret?` looks at the phase, at what is pending, at the dictionary and at the mode.
`Session.Interprets` lists what comes of it, one constructor for each way through, and
`interpret?_eq_some_iff` says that these are all ways. `Session.Meets` lists what the tokens of a line
come to, and what holds of every line is proved from the two by `interpretAll?_invariant` and
`process?_invariant`.
-/

namespace MiniForth

/-! ## Looking words up -/

namespace Dictionary

theorem findBelow?_eq_some {d : Dictionary} {name : String} {count index : Nat} {word : Word}
    (h : d.findBelow? name count = some (index, word)) :
    index < count ∧ d.get? index = some word ∧ word.isVisible = true ∧ word.name = name := by
  induction count with
  | zero => cases h
  | succ count ih =>
    rw [findBelow?] at h
    split at h
    · next w hw =>
      split at h
      · next hfound =>
        cases h
        simp only [Bool.and_eq_true, beq_iff_eq] at hfound
        exact ⟨Nat.lt_succ_self _, hw, hfound.1, hfound.2⟩
      · obtain ⟨hlt, hrest⟩ := ih h
        exact ⟨Nat.lt_succ_of_lt hlt, hrest⟩
    · obtain ⟨hlt, hrest⟩ := ih h
      exact ⟨Nat.lt_succ_of_lt hlt, hrest⟩

theorem find?_eq_some {d : Dictionary} {name : String} {index : Nat} {word : Word}
    (h : d.find? name = some (index, word)) :
    index < d.size ∧ d.get? index = some word ∧ word.isVisible = true ∧ word.name = name :=
  findBelow?_eq_some h

end Dictionary

/-! ## Primitives at the top level -/

/-- Outside of code there is nothing to return from, so `exit` fails. -/
theorem performOnTokens_eq (p : Primitive) {s : Session} (hs : s.returns = []) :
    p.performOnTokens s =
      match p.perform s with
      | .ok .next t    => .ok () t
      | .ok .skip t    => .ok () { t with pending := .skip }
      | .ok .literal t => .ok () { t with pending := .literal }
      | .ok .exit t    => .error (.ofCause t.location .emptyStack) t
      | .error f t     => .error f t := by
  have hkeeps := Primitive.perform_keeps s p
  simp only [Primitive.performOnTokens, bind, EStateM.bind]
  rcases h : p.perform s with ⟨_ | _ | _ | _, t⟩ | ⟨f, t⟩
  case ok.exit =>
    -- The primitive has left the return addresses alone, so there are none.
    rw [h] at hkeeps
    have ht : t.returns = [] := hkeeps.returns.trans hs
    simp only [Flow.onTokens, Action.leave, ht, Action.fail]
  all_goals rfl

/-- What a primitive does at the top level is what it does anywhere, but for what is pending then. -/
theorem session_performOnTokens (p : Primitive) {s : Session} (hs : s.returns = []) : ∃ pending,
    Outcome.session (p.performOnTokens s) =
      { Outcome.session (p.perform s) with pending := pending } := by
  rw [performOnTokens_eq p hs]
  rcases p.perform s with ⟨_ | _ | _ | _, t⟩ | ⟨f, t⟩
  all_goals exact ⟨_, rfl⟩

/-- A primitive that fails at the top level has changed nothing, unless it is `;`. -/
theorem Primitive.performOnTokens_error {s t : Session} {p : Primitive} {f : Failure}
    (hp : p ≠ .semicolon) (h : p.performOnTokens s = .error f t) : t = s := by
  simp only [performOnTokens, bind, EStateM.bind] at h
  rcases hperform : p.perform s with ⟨flow, u⟩ | ⟨g, u⟩
  · rw [hperform] at h
    cases flow with
    | next | skip | literal => cases h
    | exit =>
      -- Nothing is done by `exit` itself, and where there is nothing to return from it ends there.
      obtain rfl := eq_exit_of_perform hperform
      cases hperform
      have hleave : Action.leave s = .error f t := h
      rw [Action.leave] at hleave
      split at hleave
      · cases hleave
        rfl
      · cases hleave
  · rw [hperform] at h
    cases h
    rw [(perform_error hperform).2.2, if_neg hp]

/-! ## One token -/

namespace Session

/-- What comes of a token, by the way it takes through the session. -/
inductive Interprets (fuel : Nat) (s : Session) (t : Token) : Outcome Unit → Prop where
  | name : s.phase = .awaitingName → Interprets fuel s t (.ok () (s.nameDefinition t.text))
  | skip : s.phase ≠ .awaitingName → s.pending = .skip →
      Interprets fuel s t (.ok () { s with pending := .nothing })
  | literal {value : Cell} : s.phase ≠ .awaitingName → s.pending = .literal →
      t.number? = some value → Interprets fuel s t (.ok () ({ s with pending := .nothing }.push value))
  | noLiteral : s.phase ≠ .awaitingName → s.pending = .literal → t.number? = none →
      Interprets fuel s t
        (.error (.ofCause s.location (.notANumber t.text)) { s with pending := .nothing })
  | push {value : Cell} : s.phase ≠ .awaitingName → s.pending = .nothing →
      s.dictionary.find? t.text = none → t.number? = some value → s.mode = .immediate →
      Interprets fuel s t (.ok () (s.push value))
  | compileNumber {value : Cell} : s.phase ≠ .awaitingName → s.pending = .nothing →
      s.dictionary.find? t.text = none → t.number? = some value → s.mode = .compile →
      Interprets fuel s t (.ok () (s.compileNumber value))
  | unknown : s.phase ≠ .awaitingName → s.pending = .nothing →
      s.dictionary.find? t.text = none → t.number? = none →
      Interprets fuel s t (.error (.ofCause s.location (.unknownWord t.text)) s)
  | compileWord {index : Nat} {word : Word} : s.phase ≠ .awaitingName → s.pending = .nothing →
      s.dictionary.find? t.text = some (index, word) → s.mode = .compile → word.immediate = false →
      Interprets fuel s t (.ok () (s.compileWord index))
  | perform {index : Nat} {word : Word} {p : Primitive} : s.phase ≠ .awaitingName →
      s.pending = .nothing → s.dictionary.find? t.text = some (index, word) →
      ¬ (s.mode = .compile ∧ word.immediate = false) → word.behavior = .primitive p →
      Interprets fuel s t (p.performOnTokens s)
  | run {index : Nat} {word : Word} {entry : Nat} {o : Outcome Unit} : s.phase ≠ .awaitingName →
      s.pending = .nothing → s.dictionary.find? t.text = some (index, word) →
      ¬ (s.mode = .compile ∧ word.immediate = false) → word.behavior = .compiled entry →
      s.run? fuel entry = some o → Interprets fuel s t o

theorem pushNumber_eq (t : Token) (s : Session) :
    pushNumber t s =
      match t.number? with
      | some value => .ok () (s.push value)
      | none       => .error (.ofCause s.location (.notANumber t.text)) s := by
  rw [pushNumber]
  rcases t.number? with _ | value <;> rfl

theorem takeNumber_eq (t : Token) (s : Session) :
    takeNumber t s =
      match t.number? with
      | some value => .ok () (if s.mode = .compile then s.compileNumber value else s.push value)
      | none       => .error (.ofCause s.location (.unknownWord t.text)) s := by
  rw [takeNumber]
  rcases t.number? with _ | value <;> rfl

theorem pending_nothing {s : Session} (h : s.pending = .nothing) :
    { s with pending := .nothing } = s := by
  cases s
  cases h
  rfl

theorem execute?_of_find? {fuel : Nat} {s : Session} {name : String} {index : Nat} {word : Word}
    (h : s.dictionary.find? name = some (index, word)) :
    s.execute? fuel index =
      match word.behavior with
      | .primitive p    => some (p.performOnTokens s)
      | .compiled entry => s.run? fuel entry := by
  rw [execute?, (Dictionary.find?_eq_some h).2.1, Option.map_some]
  cases word.behavior <;> rfl

theorem interpret?_of_nothing {fuel : Nat} {s : Session} {t : Token}
    (hphase : s.phase ≠ .awaitingName) (hpending : s.pending = .nothing) :
    s.interpret? fuel t = s.lookUp? fuel t := by
  simp only [interpret?, if_neg hphase]
  split
  · rw [pending_nothing hpending]
  · next h => rw [hpending] at h; cases h
  · next h => rw [hpending] at h; cases h

theorem interprets_of_lookUp? {fuel : Nat} {s : Session} {t : Token} {o : Outcome Unit}
    (hphase : s.phase ≠ .awaitingName) (hpending : s.pending = .nothing)
    (h : s.lookUp? fuel t = some o) : s.Interprets fuel t o := by
  rw [lookUp?] at h
  split at h
  · next hfind =>
    rw [takeNumber_eq] at h
    split at h
    · next value hvalue =>
      cases h
      cases hmode : s.mode with
      | immediate => exact .push hphase hpending hfind hvalue hmode
      | compile => exact .compileNumber hphase hpending hfind hvalue hmode
    · next hnone => cases h; exact .unknown hphase hpending hfind hnone
  · next index word hfind =>
    split at h
    · next hcompiles => cases h; exact .compileWord hphase hpending hfind hcompiles.1 hcompiles.2
    · next hruns =>
      rw [execute?_of_find? hfind] at h
      split at h
      · next p hp => cases h; exact .perform hphase hpending hfind hruns hp
      · next entry hentry => exact .run hphase hpending hfind hruns hentry h

/-- The ways of `Interprets` are all ways. -/
theorem interpret?_eq_some_iff {fuel : Nat} {s : Session} {t : Token} {o : Outcome Unit} :
    s.interpret? fuel t = some o ↔ s.Interprets fuel t o := by
  constructor
  · intro h
    by_cases hphase : s.phase = .awaitingName
    · rw [interpret?, if_pos hphase] at h
      cases h
      exact .name hphase
    · cases hpending : s.pending with
      | nothing =>
        rw [interpret?_of_nothing hphase hpending] at h
        exact interprets_of_lookUp? hphase hpending h
      | skip =>
        simp only [interpret?, if_neg hphase, hpending] at h
        cases h
        exact .skip hphase hpending
      | literal =>
        simp only [interpret?, if_neg hphase, hpending, pushNumber_eq] at h
        split at h
        · next value hvalue => cases h; exact .literal hphase hpending hvalue
        · next hnone => cases h; exact .noLiteral hphase hpending hnone
  · intro h
    cases h with
    | name hphase => rw [interpret?, if_pos hphase]
    | skip hphase hpending => simp only [interpret?, if_neg hphase, hpending]
    | literal hphase hpending hvalue | noLiteral hphase hpending hvalue =>
      simp only [interpret?, if_neg hphase, hpending, pushNumber_eq, hvalue]
    | push hphase hpending hfind hvalue hmode | compileNumber hphase hpending hfind hvalue hmode =>
      rw [interpret?_of_nothing hphase hpending, lookUp?, hfind]
      simp only [takeNumber_eq, hvalue, hmode, reduceCtorEq, if_false, if_true]
    | unknown hphase hpending hfind hnone =>
      rw [interpret?_of_nothing hphase hpending, lookUp?, hfind]
      simp only [takeNumber_eq, hnone]
    | compileWord hphase hpending hfind hmode himmediate =>
      rw [interpret?_of_nothing hphase hpending, lookUp?, hfind]
      simp only [hmode, himmediate, and_self, if_true]
    | perform hphase hpending hfind hruns hp =>
      rw [interpret?_of_nothing hphase hpending, lookUp?, hfind]
      simp only [if_neg hruns, execute?_of_find? hfind, hp]
    | run hphase hpending hfind hruns hentry hrun =>
      rw [interpret?_of_nothing hphase hpending, lookUp?, hfind]
      simp only [if_neg hruns, execute?_of_find? hfind, hentry, hrun]

/-! ## Fuel -/

theorem Interprets.mono {m n : Nat} {s : Session} {t : Token} {o : Outcome Unit} (hmn : m ≤ n)
    (h : s.Interprets m t o) : s.Interprets n t o := by
  cases h with
  | name hphase => exact .name hphase
  | skip hphase hpending => exact .skip hphase hpending
  | literal hphase hpending hvalue => exact .literal hphase hpending hvalue
  | noLiteral hphase hpending hnone => exact .noLiteral hphase hpending hnone
  | push hphase hpending hfind hvalue hmode => exact .push hphase hpending hfind hvalue hmode
  | compileNumber hphase hpending hfind hvalue hmode =>
    exact .compileNumber hphase hpending hfind hvalue hmode
  | unknown hphase hpending hfind hnone => exact .unknown hphase hpending hfind hnone
  | compileWord hphase hpending hfind hmode himmediate =>
    exact .compileWord hphase hpending hfind hmode himmediate
  | perform hphase hpending hfind hruns hp => exact .perform hphase hpending hfind hruns hp
  | run hphase hpending hfind hruns hentry hrun =>
    exact .run hphase hpending hfind hruns hentry (run?_mono hmn hrun)

theorem interpret?_mono {m n : Nat} {s : Session} {t : Token} {o : Outcome Unit} (hmn : m ≤ n)
    (h : s.interpret? m t = some o) : s.interpret? n t = some o :=
  interpret?_eq_some_iff.mpr ((interpret?_eq_some_iff.mp h).mono hmn)

theorem interpretAll?_mono {m n : Nat} {s : Session} {ts : List Token} {o : Outcome Unit}
    (hmn : m ≤ n) (h : s.interpretAll? m ts = some o) : s.interpretAll? n ts = some o := by
  induction ts generalizing s with
  | nil => exact h
  | cons t ts ih =>
    rw [interpretAll?] at h ⊢
    rcases ht : interpret? m { s with location := some t.location } t with _ | o'
    · simp [ht] at h
    · rw [ht] at h
      rw [interpret?_mono hmn ht]
      cases o' with
      | ok _ u => exact ih h
      | error f u => exact h

theorem process?_mono {m n : Nat} {s : Session} {line : String} {r : Response × Session} (hmn : m ≤ n)
    (h : s.process? m line = some r) : s.process? n line = some r := by
  obtain ⟨o, ho, hr⟩ := Option.map_eq_some_iff.mp h
  rw [process?, interpretAll?_mono hmn ho, Option.map_some, hr]

/-- What a token comes to does not depend on the fuel. -/
theorem interpret?_unique {m n : Nat} {s : Session} {t : Token} {o o' : Outcome Unit}
    (h : s.interpret? m t = some o) (h' : s.interpret? n t = some o') : o' = o := by
  have hmax := interpret?_mono (Nat.le_max_left m n) h
  rw [interpret?_mono (Nat.le_max_right m n) h'] at hmax
  exact Option.some.inj hmax

/-- Neither does what the tokens of a line come to. -/
theorem interpretAll?_unique {m n : Nat} {s : Session} {ts : List Token} {o o' : Outcome Unit}
    (h : s.interpretAll? m ts = some o) (h' : s.interpretAll? n ts = some o') : o' = o := by
  have hmax := interpretAll?_mono (Nat.le_max_left m n) h
  rw [interpretAll?_mono (Nat.le_max_right m n) h'] at hmax
  exact Option.some.inj hmax

/-! ## The tokens of a line -/

theorem interpretAll?_cons_of_ok {fuel : Nat} {s u : Session} {t : Token}
    (h : interpret? fuel { s with location := some t.location } t = some (.ok () u))
    (ts : List Token) : interpretAll? fuel s (t :: ts) = interpretAll? fuel u ts := by
  rw [interpretAll?, h]

theorem interpretAll?_cons_of_error {fuel : Nat} {s u : Session} {t : Token} {f : Failure}
    (h : interpret? fuel { s with location := some t.location } t = some (.error f u))
    (ts : List Token) :
    interpretAll? fuel s (t :: ts) = some (.error (f.withLocation u.location) u) := by
  rw [interpretAll?, h]

/-- The tokens behind others are processed if those have been without a failure. -/
theorem interpretAll?_append (fuel : Nat) (s : Session) (ts ts' : List Token) :
    interpretAll? fuel s (ts ++ ts') =
      match interpretAll? fuel s ts with
      | some (.ok () u) => interpretAll? fuel u ts'
      | other           => other := by
  induction ts generalizing s with
  | nil => rfl
  | cons t ts ih =>
    rw [List.cons_append, interpretAll?, interpretAll?]
    rcases interpret? fuel { s with location := some t.location } t with _ | ⟨⟨⟩, u⟩ | ⟨f, u⟩
    · rfl
    · exact ih u
    · rfl

/-! ## The tokens that a line comes to -/

/-- Processing the tokens from `s` comes to the token `t` in the session `s'`. -/
inductive Meets : Session → List Token → Session → Token → Prop where
  | head {s : Session} {t : Token} {ts : List Token} :
      Meets s (t :: ts) { s with location := some t.location } t
  | tail {s u s' : Session} {t t' : Token} {ts : List Token} {fuel : Nat} :
      interpret? fuel { s with location := some t.location } t = some (.ok () u) →
      Meets u ts s' t' → Meets s (t :: ts) s' t'

theorem Meets.mem {s s' : Session} {ts : List Token} {t : Token} (h : Meets s ts s' t) : t ∈ ts := by
  induction h with
  | head => exact List.mem_cons_self
  | tail _ _ ih => exact List.mem_cons_of_mem _ ih

/-- What every token that is come to keeps holds at the end of a line's tokens, with or without a
failure. -/
theorem interpretAll?_invariant {P : Session → Prop} {fuel : Nat} {ts : List Token} {s : Session}
    {o : Outcome Unit} (hlocation : ∀ s l, P s → P { s with location := l })
    (htoken : ∀ s' t o, Meets s ts s' t → P s' → s'.Interprets fuel t o → P (Outcome.session o))
    (hs : P s) (h : interpretAll? fuel s ts = some o) : P (Outcome.session o) := by
  induction ts generalizing s with
  | nil => cases h; exact hs
  | cons t ts ih =>
    rw [interpretAll?] at h
    rcases ht : interpret? fuel { s with location := some t.location } t with _ | o'
    · simp [ht] at h
    · have hu := htoken _ _ _ .head (hlocation _ _ hs) (interpret?_eq_some_iff.mp ht)
      rw [ht] at h
      cases o' with
      | ok _ u => exact ih (fun s' t' o hmeets => htoken s' t' o (.tail ht hmeets)) hu h
      | error f u => cases h; exact hu

theorem snd_respond (o : Outcome Unit) : (respond o).2 = (Outcome.session o).endLine := by
  cases o <;> rfl

/-- Failing or not, the response has what the session has collected. -/
theorem output_respond (o : Outcome Unit) : (respond o).1.output = (Outcome.session o).output := by
  cases o <;> rfl

theorem background_respond (o : Outcome Unit) :
    (respond o).1.background = (Outcome.session o).background := by
  cases o <;> rfl

/-- What every token that a line comes to keeps, and the start and the end of a line, is kept by the
line. -/
theorem process?_invariant_of_meets {P : Session → Prop} {fuel : Nat} {line : String}
    {s t : Session} {response : Response} (hlocation : ∀ s l, P s → P { s with location := l })
    (htoken : ∀ s' token o, Meets s.startLine (Token.ofLine source s.startLine.lines line) s' token →
      P s' → s'.Interprets fuel token o → P (Outcome.session o))
    (hstart : ∀ s, P s → P s.startLine) (hend : ∀ s, P s → P s.endLine) (hs : P s)
    (h : s.process? fuel line = some (response, t)) : P t := by
  obtain ⟨o, ho, hr⟩ := Option.map_eq_some_iff.mp h
  have ht : t = (Outcome.session o).endLine := by rw [← snd_respond, hr]
  rw [ht]
  exact hend _ (interpretAll?_invariant hlocation htoken (hstart _ hs) ho)

/-- What all tokens keep, and the start and the end of a line, is kept by every line. -/
theorem process?_invariant {P : Session → Prop} {fuel : Nat}
    (hlocation : ∀ s l, P s → P { s with location := l })
    (htoken : ∀ s t o, P s → s.Interprets fuel t o → P (Outcome.session o))
    (hstart : ∀ s, P s → P s.startLine) (hend : ∀ s, P s → P s.endLine)
    {line : String} {s t : Session} {response : Response} (hs : P s)
    (h : s.process? fuel line = some (response, t)) : P t :=
  process?_invariant_of_meets hlocation (fun s' token o _ => htoken s' token o) hstart hend hs h

/-- All that processing the tokens comes to, up to the first failure. -/
def met (fuel : Nat) : Session → List Token → List (Session × Token)
  | _, []      => []
  | s, t :: ts =>
    ({ s with location := some t.location }, t) ::
      match interpret? fuel { s with location := some t.location } t with
      | some (.ok () u) => met fuel u ts
      | _               => []

theorem mem_met {fuel : Nat} {s s' : Session} {ts : List Token} {token : Token}
    (h : Meets s ts s' token) (hend : (Session.interpretAll? fuel s ts).isSome) :
    (s', token) ∈ met fuel s ts := by
  induction h with
  | head => exact List.mem_cons_self
  | @tail s u s' t t' ts m hfirst _ ih =>
    apply List.mem_cons_of_mem
    rw [Session.interpretAll?] at hend
    rcases hn : Session.interpret? fuel { s with location := some t.location } t with _ | o
    · rw [hn] at hend
      cases hend
    · have ho := interpret?_unique hfirst hn
      subst ho
      rw [hn] at hend
      exact ih hend

/-- The word that the token is looked up as. It is not looked up where it is taken as a name, passed
over, or read as the number that `lit` waits for. -/
def lookedUp? (s : Session) (t : Token) : Option (Nat × Word) :=
  if s.phase = .awaitingName ∨ s.pending ≠ .nothing then none else s.dictionary.find? t.text

theorem lookedUp?_eq {s : Session} {token : Token} (hphase : s.phase ≠ .awaitingName)
    (hpending : s.pending = .nothing) : s.lookedUp? token = s.dictionary.find? token.text := by
  rw [lookedUp?, if_neg]
  simp [hphase, hpending]

/-- The word that the token has executed. -/
def executed? (s : Session) (t : Token) : Option Word :=
  (s.lookedUp? t).bind fun found =>
    if s.mode = .compile ∧ found.2.immediate = false then none else some found.2

theorem executed?_eq {s : Session} {t : Token} {index : Nat} {word : Word}
    (hphase : s.phase ≠ .awaitingName) (hpending : s.pending = .nothing)
    (hfind : s.dictionary.find? t.text = some (index, word))
    (hruns : ¬ (s.mode = .compile ∧ word.immediate = false)) : s.executed? t = some word := by
  rw [executed?, lookedUp?_eq hphase hpending, hfind, Option.bind_some, if_neg hruns]

theorem executed?_of_busy {s : Session} {t : Token} (h : s.phase = .awaitingName ∨ s.pending ≠ .nothing) :
    s.executed? t = none := by
  rw [executed?, lookedUp?, if_pos h, Option.bind_none]

theorem executed?_of_find?_eq_none {s : Session} {t : Token} (hphase : s.phase ≠ .awaitingName)
    (hpending : s.pending = .nothing) (hfind : s.dictionary.find? t.text = none) :
    s.executed? t = none := by
  rw [executed?, lookedUp?_eq hphase hpending, hfind, Option.bind_none]

theorem executed?_of_compiles {s : Session} {t : Token} {index : Nat} {word : Word}
    (hphase : s.phase ≠ .awaitingName) (hpending : s.pending = .nothing)
    (hfind : s.dictionary.find? t.text = some (index, word)) (hmode : s.mode = .compile)
    (himmediate : word.immediate = false) : s.executed? t = none := by
  rw [executed?, lookedUp?_eq hphase hpending, hfind, Option.bind_some, if_pos ⟨hmode, himmediate⟩]

end Session

end MiniForth
