import MiniForth.Proofs.Frame
import MiniForth.Proofs.Interpreter
import MiniForth.Proofs.Tokens

/-!
# The word a line fails at

A line that fails has been processed up to one of its words. The words before that one have done their
work, and the words behind it have not been looked at. The report of the failure says where the word
stands, however deep in compiled code the failure was met.

A word that neither runs code nor ends a definition fails before it does anything, and then the line
might as well have ended in front of it.

* `Session.FailsAt`: the word, and the session in which it fails.
* `Outcome.StaysAt`: the location of a session is that of the token that is processed, and so is the
  location of every report.
* `lines_process?`: a session counts its lines.
* `Session.process?_failure`: the report, and what may stand behind the word.
* `Session.process?_before`: the line without the word and what is behind it.
-/

namespace MiniForth

/-! ## Locations -/

/-- The outcome of work on one token: the session is still at that token, in the same line, and a failure
is reported there. -/
structure Outcome.StaysAt {α : Type} (s : Session) (o : Outcome α) : Prop where
  location : (Outcome.session o).location = s.location
  lines    : (Outcome.session o).lines = s.lines
  failure  : ∀ f, o.failure? = some f → f.location = s.location

/-- What the action does is work on one token, in whatever session. -/
def Action.Stays {α : Type} (action : Action α) : Prop := ∀ s, Outcome.StaysAt s (action s)

namespace Action.Stays

theorem bind {α β : Type} {action : Action α} {next : α → Action β} (h : action.Stays)
    (hnext : ∀ a, (next a).Stays) : (action >>= next).Stays := by
  intro s
  have hs := h s
  simp only [Bind.bind, EStateM.bind]
  rcases haction : action s with ⟨a, t⟩ | ⟨f, t⟩
  · rw [haction] at hs
    obtain ⟨hlocation, hlines, hfailure⟩ := hnext a t
    refine ⟨hlocation.trans hs.location, hlines.trans hs.lines, ?_⟩
    intro f hf
    exact (hfailure f hf).trans hs.location
  · rw [haction] at hs
    exact ⟨hs.location, hs.lines, hs.failure⟩

theorem modify {g : Session → Session} (hlocation : ∀ s, (g s).location = s.location)
    (hlines : ∀ s, (g s).lines = s.lines) : Action.Stays (modify g) := by
  intro s
  refine ⟨hlocation s, hlines s, ?_⟩
  rintro f ⟨⟩

theorem perform (p : Primitive) : p.perform.Stays := by
  intro s
  have hkeeps := Primitive.perform_keeps s p
  refine ⟨hkeeps.location, hkeeps.lines, ?_⟩
  intro f hf
  rcases h : p.perform s with ⟨flow, t⟩ | ⟨g, t⟩
  · rw [h] at hf
    cases hf
  · rw [h] at hf
    cases hf
    rw [(Primitive.perform_error h).2.1]
    rfl

theorem fetch : Action.fetch.Stays := by
  intro s
  rw [Action.fetch]
  split
  · exact ⟨rfl, rfl, by rintro f ⟨⟩⟩
  · exact ⟨rfl, rfl, by rintro f ⟨⟩; rfl⟩

theorem leave : Action.leave.Stays := by
  intro s
  rw [Action.leave]
  split
  · exact ⟨rfl, rfl, by rintro f ⟨⟩; rfl⟩
  · next h =>
    rw [Session.retreat, h]
    exact ⟨rfl, rfl, by rintro f ⟨⟩⟩

theorem onCode (flow : Flow) : flow.onCode.Stays := by
  cases flow with
  | next    => exact modify (g := id) (fun _ => rfl) fun _ => rfl
  | skip    => exact modify (fun _ => rfl) fun _ => rfl
  | literal => exact fetch.bind fun value => modify (fun _ => rfl) fun _ => rfl
  | exit    => exact leave

theorem onTokens (flow : Flow) : flow.onTokens.Stays := by
  cases flow with
  | next           => exact modify (g := id) (fun _ => rfl) fun _ => rfl
  | skip | literal => exact modify (fun _ => rfl) fun _ => rfl
  | exit           => exact leave

theorem performOnTokens (p : Primitive) : p.performOnTokens.Stays := (perform p).bind onTokens

/-- So is one dispatch of compiled code, which may be at any depth. -/
theorem dispatch : MiniForth.dispatch.Stays := by
  intro s
  rw [dispatch_eq]
  split
  · exact ⟨rfl, rfl, by rintro f ⟨⟩; rfl⟩
  · split
    · exact ⟨rfl, rfl, by rintro f ⟨⟩; rfl⟩
    · exact ⟨rfl, rfl, by rintro f ⟨⟩⟩
    · next p _ =>
      -- The location and the line count do not mind that the cursor has moved.
      obtain ⟨hlocation, hlines, hfailure⟩ := ((perform p).bind onCode) s.skipCell
      exact ⟨hlocation, hlines, hfailure⟩

end Action.Stays

theorem Session.location_retreat (s : Session) : s.retreat.location = s.location := by
  rw [retreat]
  split <;> rfl

theorem Session.lines_retreat (s : Session) : s.retreat.lines = s.lines := by
  rw [retreat]
  split <;> rfl

namespace Call

theorem staysAt_outcome_iff {s : Session} {c : Call} : c.outcome.StaysAt s ↔
    c.session.location = s.location ∧ c.session.lines = s.lines ∧
      ∀ f, c.failure = some f → f.location = s.location := by
  constructor
  · rintro ⟨hlocation, hlines, hfailure⟩
    rw [session_outcome] at hlocation hlines
    rw [failure?_outcome] at hfailure
    exact ⟨hlocation, hlines, hfailure⟩
  · rintro ⟨hlocation, hlines, hfailure⟩
    exact ⟨by rwa [session_outcome], by rwa [session_outcome], by rwa [failure?_outcome]⟩

/-- A turn keeps a call at the token that has begun it, whatever it gives up. -/
theorem staysAt_turn {s : Session} {c : Call} (h : c.outcome.StaysAt s) :
    c.turn.outcome.StaysAt s := by
  rw [staysAt_outcome_iff] at h ⊢
  obtain ⟨hlocation, hlines, hfailure⟩ := h
  have hdispatch := Action.Stays.dispatch c.session
  rw [turn]
  rcases h : dispatch c.session with ⟨⟨⟩, t⟩ | ⟨f, t⟩
  · rw [h] at hdispatch
    exact ⟨hdispatch.location.trans hlocation, hdispatch.lines.trans hlines, hfailure⟩
  · rw [h] at hdispatch
    have ht : t.location = s.location := hdispatch.location.trans hlocation
    have htlines : t.lines = s.lines := hdispatch.lines.trans hlines
    refine ⟨?_, ?_, ?_⟩
    · show Session.location (if f.kind = .memoryFault then t.retreat else t.abandon) = s.location
      split
      · rw [t.location_retreat, ht]
      · exact ht
    · show Session.lines (if f.kind = .memoryFault then t.retreat else t.abandon) = s.lines
      split
      · rw [t.lines_retreat, htlines]
      · exact htlines
    · intro g hg
      have hg : (c.failure <|> some f) = some g := hg
      rcases hfirst : c.failure with _ | first
      · rw [hfirst] at hg
        cases hg
        exact (hdispatch.failure f rfl).trans hlocation
      · rw [hfirst] at hg
        cases hg
        exact hfailure _ hfirst

end Call

namespace Session

variable {fuel : Nat} {s t u : Session}

theorem staysAt_run? {entry : Nat} {o : Outcome Unit} (h : s.run? fuel entry = some o) :
    o.StaysAt s := by
  obtain ⟨n, -, c, hturns, -, rfl⟩ := run?_eq_some_iff.mp h
  refine hturns.invariant (I := fun c => c.outcome.StaysAt s) (fun d _ => Call.staysAt_turn) ?_
  exact ⟨rfl, rfl, by rintro f ⟨⟩⟩

theorem Interprets.staysAt {token : Token} {o : Outcome Unit} (h : s.Interprets fuel token o) :
    o.StaysAt s := by
  cases h with
  | noLiteral | unknown => exact ⟨rfl, rfl, by rintro f ⟨⟩; rfl⟩
  | perform => exact Action.Stays.performOnTokens _ s
  | run _ _ _ _ _ hrun => exact staysAt_run? hrun
  | _ => exact ⟨rfl, rfl, by rintro f ⟨⟩⟩

/-! ## Lines and their tokens -/

/-- A line counts as one, with or without a failure. -/
theorem lines_process? {line : String} {response : Response}
    (h : s.process? fuel line = some (response, t)) : t.lines = s.lines + 1 := by
  obtain ⟨o, ho, hrespond⟩ := Option.map_eq_some_iff.mp h
  have ht : t = (Outcome.session o).endLine := by rw [← snd_respond, hrespond]
  have hlines : (Outcome.session o).lines = s.startLine.lines :=
    interpretAll?_invariant (P := fun u => u.lines = s.startLine.lines) (fun _ _ hu => hu)
      (fun _ _ _ _ hu hinterprets => hinterprets.staysAt.lines.trans hu) rfl ho
  rw [ht]
  exact hlines

/-- Tokens that fail do so at one of them, behind others that do not, and the failure is reported as it
is met there. -/
theorem exists_of_interpretAll?_error {ts : List Token} {f : Failure}
    (h : s.interpretAll? fuel ts = some (.error f t)) : ∃ before token after v,
      ts = before ++ token :: after ∧ s.interpretAll? fuel before = some (.ok () v) ∧
      interpret? fuel { v with location := some token.location } token = some (.error f t) := by
  induction ts generalizing s with
  | nil => cases h
  | cons token ts ih =>
    rcases hfirst : interpret? fuel { s with location := some token.location } token
      with _ | ⟨⟨⟩, v⟩ | ⟨g, v⟩
    · rw [interpretAll?, hfirst] at h
      cases h
    · rw [interpretAll?_cons_of_ok hfirst] at h
      obtain ⟨before, last, after, w, rfl, hbefore, hlast⟩ := ih h
      refine ⟨token :: before, last, after, w, rfl, ?_, hlast⟩
      rw [interpretAll?_cons_of_ok hfirst, hbefore]
    · have hstays := (interpret?_eq_some_iff.mp hfirst).staysAt
      rw [interpretAll?_cons_of_error hfirst,
        Failure.withLocation_of_location (hstays.failure g rfl)] at h
      cases h
      exact ⟨[], token, ts, s, rfl, rfl, hfirst⟩

/-- Where tokens fail, those behind the one at fault make no difference. -/
theorem interpretAll?_of_error {before : List Token} {token : Token} {v : Session} {f : Failure}
    (hbefore : s.interpretAll? fuel before = some (.ok () v))
    (h : interpret? fuel { v with location := some token.location } token = some (.error f t))
    (after : List Token) : s.interpretAll? fuel (before ++ token :: after) = some (.error f t) := by
  have hstays := (interpret?_eq_some_iff.mp h).staysAt
  rw [interpretAll?_append, hbefore]
  show v.interpretAll? fuel (token :: after) = _
  rw [interpretAll?_cons_of_error h, Failure.withLocation_of_location (hstays.failure f rfl)]

/-! ## The words of a line -/

/-- A word of the next line that stands behind the text `before`. -/
def tokenBehind (s : Session) (before word : String) : Token where
  text     := word
  location := { path := source, line := s.lines + 1, column := before.length + 1 }

/-- The next line fails at `word`, which stands behind the text `before`: no word of that text fails,
and in the session `u` that they leave `word` does. -/
structure FailsAt (fuel : Nat) (s : Session) (line before word : String) (u : Session) : Prop where
  stands  : ∃ after, line = before ++ word ++ after ∧ Text.Stands before word after
  reached : ∃ v, s.startLine.interpretAll? fuel (Token.ofLine source s.startLine.lines before) =
    some (.ok () v) ∧ u = { v with location := some (s.tokenBehind before word).location }
  fails   : ∃ f t, u.interpret? fuel (s.tokenBehind before word) = some (.error f t)

variable {line before word : String} {response : Response}

/-- A line that fails does so at one of its words. -/
theorem exists_failsAt {f : Failure} (h : s.process? fuel line = some (response, t))
    (hf : response.failure = some f) : ∃ before word u, s.FailsAt fuel line before word u := by
  obtain ⟨o, ho, hrespond⟩ := Option.map_eq_some_iff.mp h
  rcases o with ⟨⟨⟩, v⟩ | ⟨g, v⟩
  · cases hrespond
    cases hf
  · obtain ⟨ts, token, ts', u, hts, hbefore, hfails⟩ := exists_of_interpretAll?_error ho
    obtain ⟨before, word, after, hline, hstands, htoken, rfl⟩ := Token.exists_stands _ ts hts
    have hcolumn : token = s.tokenBehind before word := by
      rw [htoken, Reader.ofLine, Location.advance, Nat.add_comm 1]
      rfl
    subst hcolumn
    exact ⟨before, word, _, ⟨after, String.toList_inj.mp hline, hstands⟩, ⟨u, hbefore, rfl⟩, g, v,
      hfails⟩

namespace FailsAt

/-- What the line comes to is what the word comes to, and what stands behind the word is not read. -/
theorem process?_eq (h : s.FailsAt fuel line before word u) {f : Failure}
    (hf : u.interpret? fuel (s.tokenBehind before word) = some (.error f t)) {after : String}
    (hafter : ∀ c ∈ after.toList.head?, Text.isSeparator c = true) :
    s.process? fuel (before ++ word ++ after) = some (respond (.error f t)) := by
  obtain ⟨v, hbefore, rfl⟩ := h.reached
  obtain ⟨_, -, hstands⟩ := h.stands
  obtain ⟨ts, htokens⟩ := Token.ofLine_stands ⟨hstands.isWord, hstands.behind, hafter⟩ source
    s.startLine.lines
  rw [process?, htokens]
  exact congrArg (Option.map respond) (interpretAll?_of_error hbefore hf ts)

/-- The report of the line is the one of the word. -/
theorem process?_self (h : s.FailsAt fuel line before word u) : ∃ f v,
    u.interpret? fuel (s.tokenBehind before word) = some (.error f v) ∧
      s.process? fuel line = some (respond (.error f v)) := by
  obtain ⟨f, v, hf⟩ := h.fails
  obtain ⟨after, rfl, hstands⟩ := h.stands
  exact ⟨f, v, hf, h.process?_eq hf hstands.ahead⟩

/-- The failure is reported at the word. -/
theorem location_eq (h : s.FailsAt fuel line before word u) {f : Failure}
    (hf : u.interpret? fuel (s.tokenBehind before word) = some (.error f t)) :
    f.location = some (s.tokenBehind before word).location := by
  obtain ⟨v, -, rfl⟩ := h.reached
  exact (interpret?_eq_some_iff.mp hf).staysAt.failure f rfl

end FailsAt

/-- A failure is reported in the line that was processed last, in the column of the first word that
fails. That word is the last one that is read: whatever stands behind it, the response and the session
are the same. -/
theorem process?_failure {f : Failure} (h : s.process? fuel line = some (response, t))
    (hf : response.failure = some f) :
    (∃ before word u, s.FailsAt fuel line before word u) ∧
      ∀ before word u, s.FailsAt fuel line before word u →
        f.location = some { path := source, line := t.lines, column := before.length + 1 } ∧
          t.lines = s.lines + 1 ∧
          ∀ after : String, (∀ c ∈ after.toList.head?, Text.isSeparator c = true) →
            s.process? fuel (before ++ word ++ after) = some (response, t) := by
  have hlines := lines_process? h
  refine ⟨exists_failsAt h hf, ?_⟩
  intro before word u hfails
  obtain ⟨g, v, hg, hprocess⟩ := hfails.process?_self
  rw [hprocess] at h
  cases h
  cases hf
  refine ⟨?_, hlines, fun after hafter => hfails.process?_eq hg hafter⟩
  rw [hfails.location_eq hg, tokenBehind, hlines]

/-- A session after `: é + ;`. -/
def adding : Session :=
  { Session.initial with
    code       := ⟨#[10, 0]⟩
    cursor     := 2
    dictionary := Vocabulary.dictionary.add { name := "é", behavior := .compiled 0 }
    lines      := 1 }

/-- A failure in compiled code, called behind a wide blank: it is reported at `é` in column 2, and `5`
is not read. -/
theorem adding_failure : ∃ response t f,
    adding.process? 2 "\u3000é 5" = some (response, t) ∧ response.failure = some f ∧
      f.location = some { path := source, line := 2, column := 2 } ∧
      adding.process? 2 "\u3000é,words" = some (response, t) := by
  let f : Failure := .ofCause (some { path := source, line := 2, column := 2 }) (.tooFewCells 2 0)
  have hprocess : adding.process? 2 "\u3000é 5" =
      some ({ failure := some f }, { adding with lines := 2 }) := by decide +kernel
  have hnothing : Token.ofLine source 2 "\u3000" = [] := by decide +kernel
  have hfails : adding.FailsAt 2 "\u3000é 5" "\u3000" "é"
      { adding with lines := 2, location := f.location } := by
    refine ⟨⟨" 5", rfl, by decide +kernel⟩, ⟨{ adding with lines := 2 }, ?_, rfl⟩, f,
      { adding with lines := 2, location := f.location }, rfl⟩
    rw [show adding.startLine.lines = 2 from rfl, hnothing]
    rfl
  obtain ⟨-, hall⟩ := process?_failure hprocess rfl
  obtain ⟨hlocation, -, hbehind⟩ := hall _ _ _ hfails
  have hwords : Text.Stands "\u3000" "é" ",words" := by decide +kernel
  exact ⟨_, _, f, hprocess, rfl, hlocation, hbehind ",words" hwords.ahead⟩

/-! ## Words that fail before they do anything -/

/-- The token neither runs compiled code nor ends a definition. -/
def Plain (s : Session) (token : Token) : Prop :=
  ∀ word, s.executed? token = some word → ∃ p, word.behavior = .primitive p ∧ p ≠ .semicolon

/-- A plain token that fails has at most used up what was pending. -/
theorem Interprets.session_of_plain {token : Token} {f : Failure}
    (h : s.Interprets fuel token (.error f t)) (hplain : s.Plain token) :
    t = { s with pending := .nothing } := by
  generalize ho : (.error f t : Outcome Unit) = o at h
  cases h with
  | noLiteral => cases ho; rfl
  | unknown _ hpending => cases ho; rw [pending_nothing hpending]
  | perform hphase hpending hfind hruns hp =>
    obtain ⟨q, hq, hsemi⟩ := hplain _ (executed?_eq hphase hpending hfind hruns)
    rw [hp] at hq
    cases hq
    rw [pending_nothing hpending, Primitive.performOnTokens_error hsemi ho.symm]
  | run hphase hpending hfind hruns hentry =>
    obtain ⟨q, hq, -⟩ := hplain _ (executed?_eq hphase hpending hfind hruns)
    rw [hentry] at hq
    cases hq
  | _ => cases ho

/-- Where a line fails at a word that neither runs compiled code nor ends a definition, it has come to
what the text in front of that word comes to, apart from the failure: the session it leaves, its output
and its background are those of that text alone. -/
theorem process?_before {f : Failure} (h : s.process? fuel line = some (response, t))
    (hf : response.failure = some f) :
    (∃ before word u, s.FailsAt fuel line before word u) ∧
      ∀ before word u, s.FailsAt fuel line before word u → u.Plain (s.tokenBehind before word) →
        s.process? fuel before = some ({ response with failure := none }, t) := by
  refine ⟨exists_failsAt h hf, ?_⟩
  intro before word u hfails hplain
  obtain ⟨g, v, hg, hprocess⟩ := hfails.process?_self
  have hv := (interpret?_eq_some_iff.mp hg).session_of_plain hplain
  obtain ⟨w, hbefore, rfl⟩ := hfails.reached
  rw [hprocess] at h
  cases h
  subst hv
  rw [process?, hbefore]
  rfl

/-- A session after `: double dup`. -/
def interrupted : Session :=
  { Session.initial with
    code       := ⟨#[11]⟩
    cursor     := 1
    dictionary := Vocabulary.dictionary.add
      { name := "double", hidden := true, behavior := .compiled 0 }
    mode       := .compile
    phase      := .compiling
    lines      := 1 }

/-- The definition can be gone on with as if the second `:` had not been typed. -/
theorem interrupted_before : ∃ response,
    process? 0 .initial ": double dup : +" = some (response, interrupted) ∧
      response.failure.isSome ∧
      process? 0 .initial ": double dup " =
        some ({ response with failure := none }, interrupted) := by
  let place (column : Nat) : Location := { path := source, line := 1, column }
  let f : Failure := .ofCause (some (place 14)) .nestedColon
  have hprocess : process? 0 .initial ": double dup : +" =
      some ({ failure := some f }, interrupted) := by decide +kernel
  have htokens : Token.ofLine source 1 ": double dup " =
      [{ text := ":", location := place 1 }, { text := "double", location := place 3 },
       { text := "dup", location := place 10 }] := by decide +kernel
  have hfails : Session.initial.FailsAt 0 ": double dup : +" ": double dup " ":"
      { interrupted with location := some (place 14) } := by
    refine ⟨⟨" +", rfl, by decide +kernel⟩, ⟨{ interrupted with location := some (place 10) }, ?_, rfl⟩, f, _, rfl⟩
    rw [show Session.initial.startLine.lines = 1 from rfl, htokens]
    rfl
  have hexecuted : ({ interrupted with location := some (place 14) } : Session).executed?
      (Session.initial.tokenBehind ": double dup " ":") =
        some { name := ":", immediate := true, behavior := .primitive .colon } := by decide +kernel
  obtain ⟨-, hall⟩ := process?_before hprocess rfl
  refine ⟨_, hprocess, rfl, hall _ _ _ hfails ?_⟩
  intro word hword
  rw [hexecuted] at hword
  cases hword
  exact ⟨.colon, rfl, by decide⟩

end Session

end MiniForth
