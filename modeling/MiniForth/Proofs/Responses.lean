import MiniForth.Proofs.Performing

/-!
# What a line answers

A session collects what is printed and which background colour is chosen, and the response to a line hands
this over. The other account of a line is the list of the primitives that it carries out, by its tokens and
in compiled code, each with the session it is carried out in. What these print and choose is all that the
response has.

* `Tells`: what a session has collected since an earlier one, in terms of such a list.
* `tells_perform`, `tells_turn`, `tells_run?`, `tells_interprets`, `tells_interpretAll?`: from one primitive
  to the tokens of a line.
* `process?_leftovers`: where a line starts, nothing is left of the one before.
* `process?_answers`: the response to a line, and what it leaves for the next one.
-/

namespace MiniForth

/-! ## What primitives print and choose -/

namespace Primitive

/-- What the primitive prints. -/
def printed? (s : Session) : Primitive → Option String
  | printStack => some s.stackText
  | print      => s.stack.pop?.map fun (value, _) => value.text
  | words      => some (" ".intercalate s.dictionary.visibleNames)
  | _          => none

/-- The colour that the primitive takes off the parameter stack. -/
def chosen? (s : Session) : Primitive → Option Cell
  | background => s.stack.pop?.map fun (colour, _) => colour
  | _          => none

/-- What primitives print, each in its session. -/
def printed (performed : List (Session × Primitive)) : List String :=
  performed.filterMap fun (s, p) => p.printed? s

/-- The colours that they choose. -/
def chosen (performed : List (Session × Primitive)) : List Cell :=
  performed.filterMap fun (s, p) => p.chosen? s

end Primitive

/-- A text at the end of the output, after a space if there is output already. -/
def Text.added (output text : String) : String :=
  if output.isEmpty then text else output ++ " " ++ text

theorem Text.foldl_added_of_ne_empty {output : String} (h : output ≠ "") (texts : List String) :
    texts.foldl added output = " ".intercalate (output :: texts) := by
  induction texts generalizing output with
  | nil => rw [List.foldl_nil, String.intercalate_singleton]
  | cons text texts ih =>
    have hadded : added output text = output ++ " " ++ text := if_neg (by simpa using h)
    rw [List.foldl_cons, hadded, ih (by simp [h])]
    rcases texts with _ | ⟨next, texts⟩
    · simp [String.intercalate_cons_cons]
    · simp [String.intercalate_cons_cons, String.append_assoc]

/-- Texts that are not empty come with single spaces between them. -/
theorem Text.foldl_added {texts : List String} (h : ∀ text ∈ texts, text ≠ "") :
    texts.foldl added "" = " ".intercalate texts := by
  rcases texts with _ | ⟨text, texts⟩
  · rfl
  · exact foldl_added_of_ne_empty (h text List.mem_cons_self) texts

/-- From `s` on, `t` has collected what the primitives have printed and chosen. -/
structure Tells (performed : List (Session × Primitive)) (s t : Session) : Prop where
  output     : t.output = (Primitive.printed performed).foldl Text.added s.output
  background : t.background = ((Primitive.chosen performed).getLast? <|> s.background)

namespace Tells

variable {performed more : List (Session × Primitive)} {s t u : Session}

theorem nothing (houtput : t.output = s.output) (hbackground : t.background = s.background) :
    Tells [] s t :=
  ⟨houtput, hbackground⟩

theorem refl (s : Session) : Tells [] s s := nothing rfl rfl

theorem trans (h : Tells performed s t) (h' : Tells more t u) : Tells (performed ++ more) s u where
  output := by
    rw [Primitive.printed, List.filterMap_append, List.foldl_append, h'.output, h.output]
    rfl
  background := by
    have hchosen : Primitive.chosen (performed ++ more) =
        Primitive.chosen performed ++ Primitive.chosen more := List.filterMap_append
    rw [h'.background, h.background, hchosen, List.getLast?_append]
    cases (Primitive.chosen more).getLast? <;> rfl

theorem one {p : Primitive} (houtput : t.output = ((p.printed? s).map (Text.added s.output)).getD s.output)
    (hbackground : t.background = (p.chosen? s <|> s.background)) : Tells [(s, p)] s t where
  output := by
    rw [houtput, Primitive.printed]
    rcases h : p.printed? s with _ | text <;> simp [h]
  background := by
    rw [hbackground, Primitive.chosen]
    rcases h : p.chosen? s with _ | colour <;> simp [h]

end Tells

open MiniForth.Frame

/-! ## Code -/

theorem reports_perform (s : Session) (p : Primitive) :
    (Outcome.session (p.perform s)).output =
        ((p.printed? s).map (Text.added s.output)).getD s.output ∧
      (Outcome.session (p.perform s)).background = (p.chosen? s <|> s.background) := by
  cases p
  case print =>
    rw [Primitive.perform_print, Primitive.printed?]
    rcases s.stack.pop? with _ | ⟨value, rest⟩ <;> exact ⟨rfl, rfl⟩
  case background =>
    rw [Primitive.perform_background, Primitive.chosen?]
    rcases s.stack.pop? with _ | ⟨colour, rest⟩ <;> exact ⟨rfl, rfl⟩
  case zeroBranch =>
    rw [Primitive.perform_zeroBranch]
    rcases s.stack.pop? with _ | ⟨flag, rest⟩ <;> exact ⟨rfl, rfl⟩
  case dup =>
    rw [Primitive.perform_dup]
    rcases s.stack.pop? with _ | ⟨value, rest⟩ <;> exact ⟨rfl, rfl⟩
  case add =>
    rw [Primitive.perform_add]
    rcases s.stack.popTwo? with _ | ⟨a, b, rest⟩ <;> exact ⟨rfl, rfl⟩
  case colon =>
    rw [Primitive.perform_colon]
    split <;> exact ⟨rfl, rfl⟩
  case semicolon =>
    rw [Primitive.perform_semicolon]
    split <;> exact ⟨rfl, rfl⟩
  all_goals exact ⟨rfl, rfl⟩

theorem tells_perform (s : Session) (p : Primitive) :
    Tells [(s, p)] s (Outcome.session (p.perform s)) :=
  .one (reports_perform s p).1 (reports_perform s p).2

namespace Session

/-- The primitive that is dispatched next, if one is. -/
def dispatched (s : Session) : List (Session × Primitive) :=
  match s.upcoming? with
  | some (.primitive p) => [(s.skipCell, p)]
  | _                   => []

end Session

theorem tells_step (s : Session) : Tells s.dispatched s (step s).session := by
  rcases hup : s.upcoming? with _ | ⟨p⟩ | ⟨entry⟩
  · rw [Session.dispatched, hup]
    obtain ⟨f, t, hstep, rfl | rfl⟩ := step_of_upcoming?_eq_none hup
    · rw [hstep]
      exact .refl _
    · rw [hstep]
      exact .nothing rfl rfl
  · obtain ⟨stack, cursor, hsession⟩ := session_perform s.skipCell p
    have hperform := tells_perform s.skipCell p
    rw [Session.dispatched, hup, step_of_primitive hup, hsession]
    exact ⟨hperform.output, hperform.background⟩
  · rw [Session.dispatched, hup, step_of_compiled hup]
    exact .nothing rfl rfl

namespace Call

variable {c d : Call}

theorem tells_turn (hc : c.isOver = false) : Tells c.session.dispatched c.session c.turn.session := by
  obtain ⟨cursor, returns, hturn⟩ := session_turn hc
  have hstep := tells_step c.session
  rw [hturn]
  exact ⟨hstep.output, hstep.background⟩

/-- The primitives that the call dispatches. -/
def performed (fuel : Nat) (c : Call) : List (Session × Primitive) :=
  (c.visits fuel).flatMap Session.dispatched

theorem tells_finish? {fuel : Nat} (h : c.finish? fuel = some d) :
    Tells (c.performed fuel) c.session d.session := by
  induction fuel generalizing c with
  | zero =>
    rw [finish?] at h
    split at h <;> cases h
    exact .refl _
  | succ fuel ih =>
    rw [finish?] at h
    split at h
    · next hover =>
      cases h
      rw [performed, visits, if_pos hover]
      exact .refl _
    · next hover =>
      rw [performed, visits, if_neg hover, List.flatMap_cons]
      exact (tells_turn (by simpa using hover)).trans (ih h)

end Call

namespace Session

variable {fuel : Nat} {s t : Session} {token : Token} {ts : List Token} {o : Outcome Unit}

theorem tells_run? {entry : Nat} (h : s.run? fuel entry = some o) :
    Tells ((Call.start s entry).performed fuel) s (Outcome.session o) := by
  obtain ⟨c, hc, rfl⟩ := Option.map_eq_some_iff.mp h
  have hfinish := Call.tells_finish? hc
  rw [Call.session_outcome]
  exact ⟨hfinish.output, hfinish.background⟩

/-! ## Tokens -/

theorem tells_performOnTokens (s : Session) (p : Primitive) :
    Tells [(s, p)] s (Outcome.session (p.performOnTokens s)) := by
  have hperform := tells_perform s p
  simp only [Primitive.performOnTokens, bind, EStateM.bind]
  rcases h : p.perform s with ⟨flow, t⟩ | ⟨f, t⟩
  · rw [h] at hperform
    cases flow with
    | next | skip | literal => exact ⟨hperform.output, hperform.background⟩
    | exit =>
      show Tells _ s (Outcome.session (Action.leave t))
      rw [Action.leave]
      rcases hreturns : t.returns with _ | ⟨resume, outer⟩
      · exact hperform
      · simp only [Session.retreat, hreturns]
        exact ⟨hperform.output, hperform.background⟩
  · rwa [h] at hperform

/-- The primitives that the token has carried out. -/
def performed (fuel : Nat) (s : Session) (token : Token) : List (Session × Primitive) :=
  match (s.executed? token).map Word.behavior with
  | none                   => []
  | some (.primitive p)    => [(s, p)]
  | some (.compiled entry) => (Call.start s entry).performed fuel

theorem tells_interprets (h : s.Interprets fuel token o) :
    Tells (s.performed fuel token) s (Outcome.session o) := by
  -- A token that has nothing executed leaves what has been collected as it is.
  have hquiet (hexecuted : s.executed? token = none) {t : Session} (houtput : t.output = s.output)
      (hbackground : t.background = s.background) : Tells (s.performed fuel token) s t := by
    rw [performed, hexecuted]
    exact .nothing houtput hbackground
  cases h with
  | name hphase => exact hquiet (executed?_of_busy (.inl hphase)) rfl rfl
  | skip _ hpending | literal _ hpending | noLiteral _ hpending =>
    exact hquiet (executed?_of_busy (.inr (by simp [hpending]))) rfl rfl
  | push hphase hpending hfind | compileNumber hphase hpending hfind | unknown hphase hpending hfind =>
    exact hquiet (executed?_of_find?_eq_none hphase hpending hfind) rfl rfl
  | compileWord hphase hpending hfind hmode himmediate =>
    exact hquiet (executed?_of_compiles hphase hpending hfind hmode himmediate) rfl rfl
  | perform hphase hpending hfind hruns hbehavior =>
    rw [performed, executed?_eq hphase hpending hfind hruns, Option.map_some, hbehavior]
    exact tells_performOnTokens s _
  | run hphase hpending hfind hruns hbehavior hrun =>
    rw [performed, executed?_eq hphase hpending hfind hruns, Option.map_some, hbehavior]
    exact tells_run? hrun

/-- The primitives that tokens in a row have carried out, up to the first failure. -/
def performedByAll (fuel : Nat) (s : Session) (ts : List Token) : List (Session × Primitive) :=
  (met fuel s ts).flatMap fun (s', token) => s'.performed fuel token

theorem tells_interpretAll? (h : s.interpretAll? fuel ts = some o) :
    Tells (s.performedByAll fuel ts) s (Outcome.session o) := by
  induction ts generalizing s with
  | nil =>
    cases h
    exact .refl s
  | cons token ts ih =>
    rw [interpretAll?] at h
    rcases hfirst : interpret? fuel { s with location := some token.location } token with _ | o'
    · simp [hfirst] at h
    · have htoken := tells_interprets (interpret?_eq_some_iff.mp hfirst)
      rw [performedByAll, met, List.flatMap_cons, hfirst]
      rw [hfirst] at h
      cases o' with
      | ok _ u =>
        have hwhole := htoken.trans (ih h)
        exact ⟨hwhole.output, hwhole.background⟩
      | error f u =>
        cases h
        have hwhole := htoken.trans (.refl u)
        exact ⟨hwhole.output, hwhole.background⟩

/-! ## Lines -/

/-- The primitives that a line carries out, each with the session it is carried out in. -/
def performedByLine (fuel : Nat) (s : Session) (line : String) : List (Session × Primitive) :=
  s.startLine.performedByAll fuel (Token.ofLine source s.startLine.lines line)

/-- Where a line starts, nothing is left of the one before but where its last token stood, and that is
forgotten at the first token, or at the end of a line without tokens. -/
theorem process?_leftovers (fuel : Nat) (s : Session) (output : String) (background : Option Cell)
    (pending : Pending) (location : Option Location) (line : String) :
    process? fuel { s with output, background, pending, location } line = s.process? fuel line := by
  show (interpretAll? fuel { s.startLine with location }
    (Token.ofLine source s.startLine.lines line)).map respond = _
  rw [process?]
  rcases Token.ofLine source s.startLine.lines line with _ | ⟨token, ts⟩ <;> rfl

/-- A line answers the same and leaves the same session, whatever has been left from earlier lines of what
belongs to one line. All of that is gone at its end too. Its response has the colour that was chosen last
while it was processed, and the texts that were printed, whether it failed or not. -/
theorem process?_answers {response : Response} {line : String}
    (h : s.process? fuel line = some (response, t)) :
    (∀ output background pending location,
      process? fuel { s with output, background, pending, location } line = some (response, t)) ∧
    (t.output = "" ∧ t.background = none ∧ t.pending = .nothing ∧ t.location = none) ∧
    response.background = (Primitive.chosen (s.performedByLine fuel line)).getLast? ∧
    ((∀ text ∈ Primitive.printed (s.performedByLine fuel line), text ≠ "") →
      response.output = " ".intercalate (Primitive.printed (s.performedByLine fuel line))) := by
  obtain ⟨o, ho, hrespond⟩ := Option.map_eq_some_iff.mp h
  have htells := tells_interpretAll? ho
  refine ⟨?_, ?_, ?_, ?_⟩
  · intro output background pending location
    rw [process?_leftovers, h]
  · have ht : t = (Outcome.session o).endLine := by rw [← snd_respond, hrespond]
    subst ht
    exact ⟨rfl, rfl, rfl, rfl⟩
  · have hbackground : response.background = (Outcome.session o).background := by
      rw [← background_respond, hrespond]
    rw [hbackground, htells.background]
    show ((Primitive.chosen (s.performedByLine fuel line)).getLast? <|> none) = _
    cases (Primitive.chosen (s.performedByLine fuel line)).getLast? <;> rfl
  · intro htexts
    have houtput : response.output = (Outcome.session o).output := by
      rw [← output_respond, hrespond]
    rw [houtput, htells.output]
    exact Text.foldl_added htexts

/-- A line that chooses a colour, then another one in a word that it defines, and fails, after a line that
has left a text, a colour and a skip. -/
theorem failing_answers : ∃ response t,
    process? 9 .initial ": c 3 bg ; 1 bg 7 . c .s nope" = some (response, t) ∧
    process? 9 { Session.initial with output := "left", background := some 5, pending := .skip }
      ": c 3 bg ; 1 bg 7 . c .s nope" = some (response, t) ∧
    response.failure ≠ none ∧ response.background = some 3 ∧ response.output = "7 <0>" := by
  have hends : (process? 9 .initial ": c 3 bg ; 1 bg 7 . c .s nope").isSome := by decide +kernel
  obtain ⟨⟨response, t⟩, h⟩ := Option.isSome_iff_exists.mp hends
  obtain ⟨hsame, -, hbackground, houtput⟩ := process?_answers h
  have hchosen : Primitive.chosen (performedByLine 9 .initial ": c 3 bg ; 1 bg 7 . c .s nope") =
      [1, 3] := by decide +kernel
  have hprinted : Primitive.printed (performedByLine 9 .initial ": c 3 bg ; 1 bg 7 . c .s nope") =
      ["7", "<0>"] := by decide +kernel
  have hfails : (process? 9 .initial ": c 3 bg ; 1 bg 7 . c .s nope").map (fun r => r.1.failure.isSome) =
      some true := by decide +kernel
  rw [h] at hfails
  rw [hchosen] at hbackground
  rw [hprinted] at houtput
  refine ⟨response, t, h, hsame "left" (some 5) .skip none, ?_, hbackground, houtput (by decide)⟩
  intro hnone
  simp [hnone] at hfails

end Session

end MiniForth
