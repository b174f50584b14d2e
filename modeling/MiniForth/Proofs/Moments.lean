import Mathlib.Logic.Relation
import MiniForth.Proofs.Confined
import MiniForth.Proofs.FailingWord

/-!
# Moments

A line is processed word by word, and code that a word runs is carried out cell by cell. A `Moment` says
how far this has got: it lies between two lines, between two words of a line, or between two turns of a
call. `Moment.Next` goes from one moment to the next one, so what holds of all moments holds in the
middle of a line too, and on the way of a line that never comes to its end.

* `exists_next`, `Next.unique`: at every moment there is a next one, and what is typed decides which.
* `leads_of_process?`: processing a line is a sequence of steps.
* `Arises.grounded`: what lies behind a moment is a reachable session, the words of its line that have
  been processed, and the turns of the call that is running.
* `arises_resting_iff`: the moments between lines are those of the reachable sessions.
* `Leads.kept`: what primitives and names keep of the definitions, later moments have kept.
-/

namespace MiniForth

namespace Session

/-! ## Words that run code -/

/-- Where the code begins that the token runs, if it runs any. -/
def called? (s : Session) (t : Token) : Option Nat :=
  match (s.executed? t).map Word.behavior with
  | some (.compiled entry) => some entry
  | _                      => none

variable {s : Session} {t : Token} {entry : Nat}

theorem called?_eq_some_iff : s.called? t = some entry ↔
    ∃ word, s.executed? t = some word ∧ word.behavior = .compiled entry := by
  rw [called?]
  rcases h : s.executed? t with _ | word
  · simp
  · rcases hb : word.behavior with p | other
    · simp [hb]
    · simp [hb]

theorem called?_eq {index : Nat} {word : Word} (hphase : s.phase ≠ .awaitingName)
    (hpending : s.pending = .nothing) (hfind : s.dictionary.find? t.text = some (index, word))
    (hruns : ¬ (s.mode = .compile ∧ word.immediate = false)) (hbehavior : word.behavior = .compiled entry) :
    s.called? t = some entry :=
  called?_eq_some_iff.mpr ⟨word, executed?_eq hphase hpending hfind hruns, hbehavior⟩

/-- What it takes for a token to have a word executed. -/
theorem exists_of_executed? {word : Word} (h : s.executed? t = some word) :
    s.phase ≠ .awaitingName ∧ s.pending = .nothing ∧ ∃ index,
      s.dictionary.find? t.text = some (index, word) ∧
        ¬ (s.mode = .compile ∧ word.immediate = false) := by
  obtain ⟨⟨index, found⟩, hlooked, hfound⟩ := Option.bind_eq_some_iff.mp h
  rw [lookedUp?] at hlooked
  split at hlooked
  · cases hlooked
  · next hfree =>
    obtain ⟨hphase, hpending⟩ := not_or.mp hfree
    split at hfound
    · cases hfound
    · next hruns =>
      cases hfound
      exact ⟨hphase, by simpa using hpending, index, hlooked, hruns⟩

/-- Where a token runs code, what it comes to is what the call comes to. -/
theorem interpret?_of_called? (h : s.called? t = some entry) (fuel : Nat) :
    s.interpret? fuel t = s.run? fuel entry := by
  obtain ⟨word, hword, hbehavior⟩ := called?_eq_some_iff.mp h
  obtain ⟨hphase, hpending, index, hfind, hruns⟩ := exists_of_executed? hword
  rw [interpret?_of_nothing hphase hpending, lookUp?, hfind]
  simp only [if_neg hruns, execute?_of_find? hfind, hbehavior]

/-- A token that runs no code is done with, however little fuel there is. -/
theorem exists_interpret?_of_not_called (h : s.called? t = none) (fuel : Nat) :
    ∃ o, s.interpret? fuel t = some o := by
  by_cases hphase : s.phase = .awaitingName
  · exact ⟨_, if_pos hphase⟩
  · cases hpending : s.pending with
    | skip | literal => simp only [interpret?, if_neg hphase, hpending, Option.some.injEq, exists_eq']
    | nothing =>
      rw [interpret?_of_nothing hphase hpending, lookUp?]
      rcases hfind : s.dictionary.find? t.text with _ | ⟨index, word⟩
      · exact ⟨_, rfl⟩
      · by_cases hcompiles : s.mode = .compile ∧ word.immediate = false
        · exact ⟨_, if_pos hcompiles⟩
        · rcases hbehavior : word.behavior with p | entry
          · simp only [if_neg hcompiles, execute?_of_find? hfind, hbehavior, Option.some.injEq, exists_eq']
          · rw [called?_eq hphase hpending hfind hcompiles hbehavior] at h
            cases h

end Session

/-! ## One step -/

/-- How far the work on a session has got. -/
inductive Moment where
  /-- Between two lines. -/
  | resting (s : Session)
  /-- Between two words of a line, of which those in `ahead` are still to be processed. -/
  | reading (s : Session) (ahead : List Token)
  /-- Between two turns of a call that a word of a line has begun. -/
  | running (c : Call) (ahead : List Token)

namespace Moment

/-- The session at that moment. -/
def session : Moment → Session
  | resting s   => s
  | reading s _ => s
  | running c _ => c.session

/-- Is no code running? -/
def isQuiet : Moment → Bool
  | running _ _ => false
  | _           => true

/-- The moment behind a word: the words ahead are processed next, unless the word has failed. -/
def after (ahead : List Token) : Outcome Unit → Moment
  | .ok () s   => reading s ahead
  | .error _ s => resting s.endLine

/-- One step leads from a moment to another one. -/
inductive Next : Moment → Moment → Prop where
  /-- A line is begun. -/
  | line (s : Session) (text : String) :
      Next (resting s) (reading s.startLine (Token.ofLine Session.source s.startLine.lines text))
  /-- All words of the line have been processed. -/
  | finish (s : Session) : Next (reading s []) (resting s.endLine)
  /-- A word is processed that runs no code. -/
  | word {s : Session} {t : Token} {ahead : List Token} {fuel : Nat} {o : Outcome Unit} :
      Session.called? { s with location := some t.location } t = none →
      Session.interpret? fuel { s with location := some t.location } t = some o →
      Next (reading s (t :: ahead)) (after ahead o)
  /-- A word begins a call. -/
  | call {s : Session} {t : Token} {ahead : List Token} {entry : Nat} :
      Session.called? { s with location := some t.location } t = some entry →
      Next (reading s (t :: ahead))
        (running (Call.start { s with location := some t.location } entry) ahead)
  | turn {c : Call} {ahead : List Token} : c.isOver = false →
      Next (running c ahead) (running c.turn ahead)
  /-- The call is over. -/
  | back {c : Call} {ahead : List Token} : c.isOver = true →
      Next (running c ahead) (after ahead c.outcome)

/-- There is always a next moment. -/
theorem exists_next (m : Moment) : ∃ m', m.Next m' := by
  cases m with
  | resting s => exact ⟨_, .line s ""⟩
  | reading s ahead =>
    cases ahead with
    | nil => exact ⟨_, .finish s⟩
    | cons t ahead =>
      rcases hcalled : Session.called? { s with location := some t.location } t with _ | entry
      · obtain ⟨o, ho⟩ := Session.exists_interpret?_of_not_called hcalled 0
        exact ⟨_, .word hcalled ho⟩
      · exact ⟨_, .call hcalled⟩
  | running c ahead =>
    rcases hc : c.isOver
    · exact ⟨_, .turn hc⟩
    · exact ⟨_, .back hc⟩

/-- Between lines the next moment depends on what is typed, and nowhere else is there a choice. -/
theorem Next.unique {m m' m'' : Moment} (hm : ∀ s, m ≠ resting s) (h : m.Next m') (h' : m.Next m'') :
    m'' = m' := by
  cases h with
  | line s => exact absurd rfl (hm s)
  | finish => cases h'; rfl
  | word hcalled ho =>
    cases h' with
    | word _ ho' => rw [Session.interpret?_unique ho ho']
    | call hcalled' => rw [hcalled] at hcalled'; cases hcalled'
  | call hcalled =>
    cases h' with
    | word hcalled' => rw [hcalled] at hcalled'; cases hcalled'
    | call hcalled' => rw [hcalled] at hcalled'; cases hcalled'; rfl
  | turn hc =>
    cases h' with
    | turn => rfl
    | back hc' => rw [hc] at hc'; cases hc'
  | back hc =>
    cases h' with
    | turn hc' => rw [hc] at hc'; cases hc'
    | back => rfl

/-- Steps lead from a moment to another one. -/
def Leads : Moment → Moment → Prop := Relation.ReflTransGen Next

/-- Steps lead to the moment from a new session. -/
def Arises (m : Moment) : Prop := Leads (resting .initial) m

variable {m m' : Moment}

theorem Leads.trans {m'' : Moment} (h : m.Leads m') (h' : m'.Leads m'') : m.Leads m'' :=
  Relation.ReflTransGen.trans h h'

theorem Next.leads (h : m.Next m') : m.Leads m' := Relation.ReflTransGen.single h

theorem Arises.leads (hm : m.Arises) (h : m.Leads m') : m'.Arises := Leads.trans hm h

/-- What every step keeps holds of all moments. -/
theorem Arises.invariant {I : Moment → Prop} (hinitial : I (resting .initial))
    (hstep : ∀ m m', m.Arises → I m → m.Next m' → I m') (hm : m.Arises) : I m := by
  have hboth : m.Arises ∧ I m := by
    induction hm with
    | refl => exact ⟨Relation.ReflTransGen.refl, hinitial⟩
    | tail _ hnext ih => exact ⟨ih.1.leads hnext.leads, hstep _ _ ih.1 ih.2 hnext⟩
  exact hboth.2

/-- What relates every moment to the next one relates it to all later ones. -/
theorem Arises.relation {R : Moment → Moment → Prop} (hrefl : ∀ m, R m m)
    (htrans : ∀ m m' m'', R m m' → R m' m'' → R m m'')
    (hstep : ∀ m m', m.Arises → m.Next m' → R m m') (hm : m.Arises) (h : m.Leads m') : R m m' := by
  induction h with
  | refl => exact hrefl m
  | tail hleads hnext ih => exact htrans _ _ _ ih (hstep _ _ (hm.leads hleads) hnext)

/-! ## Lines are steps -/

theorem leads_of_turns {n : Nat} {c d : Call} (h : Call.Turns n c d) (ahead : List Token) :
    (running c ahead).Leads (running d ahead) := by
  induction h with
  | refl => exact Relation.ReflTransGen.refl
  | turn hrunning _ ih => exact (Next.turn hrunning).leads.trans ih

theorem leads_of_interpret? {fuel : Nat} {s : Session} {t : Token} {o : Outcome Unit}
    (h : Session.interpret? fuel { s with location := some t.location } t = some o)
    (ahead : List Token) : (reading s (t :: ahead)).Leads (after ahead o) := by
  rcases hentry : Session.called? { s with location := some t.location } t with _ | entry
  · exact (Next.word hentry h).leads
  · rw [Session.interpret?_of_called? hentry] at h
    obtain ⟨n, -, c, hturns, hc, rfl⟩ := Session.run?_eq_some_iff.mp h
    exact ((Next.call hentry).leads.trans (leads_of_turns hturns ahead)).trans (Next.back hc).leads

theorem leads_of_interpretAll? {fuel : Nat} {s : Session} {ts : List Token} {o : Outcome Unit}
    (h : s.interpretAll? fuel ts = some o) :
    (reading s ts).Leads (resting (Outcome.session o).endLine) := by
  induction ts generalizing s with
  | nil => cases h; exact (Next.finish s).leads
  | cons t ts ih =>
    rcases ht : Session.interpret? fuel { s with location := some t.location } t
      with _ | ⟨⟨⟩, u⟩ | ⟨f, u⟩
    · rw [Session.interpretAll?, ht] at h
      cases h
    · rw [Session.interpretAll?_cons_of_ok ht] at h
      exact (leads_of_interpret? ht ts).trans (ih h)
    · rw [Session.interpretAll?_cons_of_error ht] at h
      cases h
      exact leads_of_interpret? ht ts

/-- A line that comes to its end leads from the session before it to the one behind it. -/
theorem leads_of_process? {fuel : Nat} {s t : Session} {line : String} {response : Response}
    (h : s.process? fuel line = some (response, t)) : (resting s).Leads (resting t) := by
  obtain ⟨o, ho, hrespond⟩ := Option.map_eq_some_iff.mp h
  have ht : t = (Outcome.session o).endLine := by rw [← Session.snd_respond, hrespond]
  rw [ht]
  exact (Next.line s line).leads.trans (leads_of_interpretAll? ho)

/-! ## What lies behind a moment -/

end Moment

namespace Session

theorem Reachable.endLine_of_tokens {fuel : Nat} {s : Session} {text : String} {o : Outcome Unit}
    (hs : s.Reachable)
    (h : s.startLine.interpretAll? fuel (Token.ofLine source s.startLine.lines text) = some o) :
    (Outcome.session o).endLine.Reachable := by
  have hprocess : s.process? fuel text = some ((respond o).1, (respond o).2) := by
    rw [process?, h, Option.map_some]
  rw [← snd_respond]
  exact .line hs hprocess

/-- The words `ahead` are what is left of a line in whose middle the session is. -/
def Amid (s : Session) (ahead : List Token) : Prop :=
  ∃ (begun : Session) (text : String) (before : List Token) (fuel : Nat), begun.Reachable ∧
    Token.ofLine source begun.startLine.lines text = before ++ ahead ∧
    begun.startLine.interpretAll? fuel before = some (.ok () s)

namespace Amid

variable {s : Session} {t : Token} {ahead : List Token}

/-- The next word is not empty. -/
theorem text_ne_empty (h : s.Amid (t :: ahead)) : t.text ≠ "" := by
  obtain ⟨begun, text, before, fuel, -, htokens, -⟩ := h
  refine Token.text_ne_empty (r := Reader.ofLine source begun.startLine.lines text) ?_
  show t ∈ Token.ofLine source begun.startLine.lines text
  rw [htokens]
  simp

/-- Between words no call is running. -/
theorem returns_eq_nil (h : s.Amid ahead) : s.returns = [] := by
  obtain ⟨begun, text, before, fuel, hreachable, -, hbefore⟩ := h
  have hstart : begun.startLine.returns = [] := hreachable.returns_eq_nil
  exact interpretAll?_invariant (P := fun u => u.returns = []) (fun _ _ hu => hu)
    (fun _ _ _ _ hu hinterprets => returns_of_interprets hu hinterprets) hstart hbefore

theorem reachable_endLine (h : s.Amid []) : s.endLine.Reachable := by
  obtain ⟨begun, text, before, fuel, hreachable, htokens, hbefore⟩ := h
  rw [List.append_nil] at htokens
  rw [← htokens] at hbefore
  exact hreachable.endLine_of_tokens hbefore

end Amid

end Session

namespace Moment

variable {m m' : Moment}

/-- What has been done before the moment. -/
def Grounded : Moment → Prop
  | resting s       => s.Reachable
  | reading s ahead => s.Amid ahead
  | running c ahead => ∃ (s : Session) (t : Token) (entry n : Nat), s.Amid (t :: ahead) ∧
      Session.called? { s with location := some t.location } t = some entry ∧
      Call.Turns n (Call.start { s with location := some t.location } entry) c

theorem grounded_after {fuel : Nat} {s : Session} {t : Token} {ahead : List Token} {o : Outcome Unit}
    (hs : s.Amid (t :: ahead))
    (h : Session.interpret? fuel { s with location := some t.location } t = some o) :
    (after ahead o).Grounded := by
  obtain ⟨begun, text, before, n, hreachable, htokens, hbefore⟩ := hs
  have hbefore := Session.interpretAll?_mono (Nat.le_max_left n fuel) hbefore
  have h := Session.interpret?_mono (Nat.le_max_right n fuel) h
  rcases o with ⟨⟨⟩, u⟩ | ⟨f, u⟩
  · refine ⟨begun, text, before ++ [t], max n fuel, hreachable, ?_, ?_⟩
    · rw [htokens, List.append_assoc, List.singleton_append]
    · rw [Session.interpretAll?_append, hbefore]
      exact Session.interpretAll?_cons_of_ok h []
  · -- The line has failed at the word, and this is where it ends.
    have hfails : begun.startLine.interpretAll? (max n fuel)
        (Token.ofLine Session.source begun.startLine.lines text) =
          some (.error f u) := by
      rw [htokens, Session.interpretAll?_of_error hbefore h]
    exact hreachable.endLine_of_tokens hfails

theorem Next.grounded (h : m.Next m') (hm : m.Grounded) : m'.Grounded := by
  cases h with
  | line s text => exact ⟨s, text, [], 0, hm, rfl, rfl⟩
  | finish s => exact hm.reachable_endLine
  | word _ hinterpret => exact grounded_after hm hinterpret
  | call hentry => exact ⟨_, _, _, 0, hm, hentry, .refl _⟩
  | turn hrunning =>
    obtain ⟨s, t, entry, n, hs, hentry, hturns⟩ := hm
    exact ⟨s, t, entry, n + 1, hs, hentry, hturns.trans (.single hrunning)⟩
  | back hc =>
    obtain ⟨s, t, entry, n, hs, hentry, hturns⟩ := hm
    have hrun := Session.run?_eq_some_iff.mpr ⟨n, Nat.le_refl n, _, hturns, hc, rfl⟩
    rw [← Session.interpret?_of_called? hentry] at hrun
    exact grounded_after hs hrun

theorem Arises.grounded (hm : m.Arises) : m.Grounded :=
  hm.invariant (I := Grounded) Session.Reachable.initial
    fun _ _ _ hgrounded hnext => hnext.grounded hgrounded

/-- The moments between lines are those of the sessions that lines lead to. -/
theorem arises_resting_iff {s : Session} : (resting s).Arises ↔ s.Reachable := by
  constructor
  · intro h
    exact h.grounded
  · intro h
    induction h with
    | initial => exact Relation.ReflTransGen.refl
    | line _ hprocess ih => exact ih.leads (leads_of_process? hprocess)

/-- Where no code is running, there is nothing to return from. -/
theorem Arises.returns_eq_nil (hm : m.Arises) (hquiet : m.isQuiet = true) :
    m.session.returns = [] := by
  have hgrounded := hm.grounded
  cases m with
  | resting s => exact Session.Reachable.returns_eq_nil hgrounded
  | reading s ahead => exact Session.Amid.returns_eq_nil hgrounded
  | running c ahead => cases hquiet

/-! ## What later moments have kept -/

theorem Next.kept {P : Session → Prop} (hP : Session.Kept (fun _ _ => True) P) (hm : m.Arises)
    (h : m.Next m') (hPm : P m.session) : P m'.session := by
  have hafter (ahead : List Token) (o : Outcome Unit) (ho : P (Outcome.session o)) :
      P (after ahead o).session := by
    cases o with
    | ok => exact ho
    | error => exact hP.congr ho rfl rfl rfl
  cases h with
  | line | finish | call => exact hP.congr hPm rfl rfl rfl
  | @word s t ahead fuel o _ hinterpret =>
    have hreturns : Session.returns { s with location := some t.location } = [] :=
      hm.returns_eq_nil rfl
    have hamid : s.Amid (t :: ahead) := hm.grounded
    have hlocated : P { s with location := some t.location } := hP.congr hPm rfl rfl rfl
    exact hafter ahead o (hP.interprets hlocated hreturns hamid.text_ne_empty
      (Session.performsOnly_true _ t) (Session.interpret?_eq_some_iff.mp hinterpret))
  | @turn c ahead hc =>
    obtain ⟨cursor, returns, hturn⟩ := Call.session_turn hc
    show P c.turn.session
    rw [hturn]
    exact hP.congr (hP.step hPm fun _ _ => trivial) rfl rfl rfl
  | @back c ahead hc =>
    refine hafter ahead c.outcome ?_
    rw [Call.session_outcome]
    exact hPm

/-- What primitives and names keep holds of all later moments. -/
theorem Leads.kept {P : Session → Prop} (h : m.Leads m') (hP : Session.Kept (fun _ _ => True) P)
    (hm : m.Arises) (hPm : P m.session) : P m'.session := by
  induction h with
  | refl => exact hPm
  | tail hleads hnext ih => exact hnext.kept hP (hm.leads hleads) ih

end Moment

end MiniForth
