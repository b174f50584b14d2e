import MiniForth.Proofs.Identity
import MiniForth.Proofs.Nesting

/-!
# How definitions get their names

`:` adds a word without a name and leaves it to the next word of the input to name it. The two can be
far apart: code may carry out `:` and run on, several times over, the line may end or fail in between,
and lines without words may follow. But no word of the input is processed in between, and nothing is
pending that could take the name away.

* `Arises.tracks`: the word that waits for its name is the newest one.
* `Arises.pending_eq_nothing`: then nothing is pending.
* `next_reading_iff`: so the next word of the input becomes its name.
* `Arises.name_is_kept`: all of this, and that a name once given stays.
-/

namespace MiniForth

/-! ## What is pending -/

/-- A primitive that acts on the next word of the input starts no definition. -/
theorem Primitive.phase_of_perform {s t : Session} {p : Primitive} {flow : Flow} (hflow : flow ≠ .next)
    (h : p.perform s = .ok flow t) : t.phase = s.phase := by
  cases performs_of_perform h with
  | computes => rfl
  | hide | reveal | colon | semicolon => exact absurd rfl hflow

namespace Session

variable {s : Session}

theorem pending_of_performOnTokens (hreturns : s.returns = []) (hphase : s.phase ≠ .awaitingName)
    (hpending : s.pending = .nothing) (p : Primitive)
    (hwaits : (Outcome.session (p.performOnTokens s)).phase = .awaitingName) :
    (Outcome.session (p.performOnTokens s)).pending = .nothing := by
  have hkeeps := Primitive.perform_keeps s p
  rw [performOnTokens_eq p hreturns] at hwaits ⊢
  rcases h : p.perform s with ⟨flow, t⟩ | ⟨f, t⟩
  · rw [h] at hkeeps hwaits
    have hnothing : t.pending = .nothing := hkeeps.pending.trans hpending
    cases flow with
    | next | exit => exact hnothing
    | skip | literal =>
      have hsame : t.phase = s.phase := Primitive.phase_of_perform (by simp) h
      exact absurd (hsame.symm.trans hwaits) hphase
  · rw [h] at hkeeps
    exact hkeeps.pending.trans hpending

theorem pending_of_interprets {fuel : Nat} {t : Token} {o : Outcome Unit} (hreturns : s.returns = [])
    (hcalled : s.called? t = none) (h : s.Interprets fuel t o)
    (hwaits : (Outcome.session o).phase = .awaitingName) : (Outcome.session o).pending = .nothing := by
  cases h with
  | name => cases hwaits
  | skip | literal | noLiteral => rfl
  | push _ hpending | compileNumber _ hpending | unknown _ hpending | compileWord _ hpending =>
    exact hpending
  | perform hphase hpending => exact pending_of_performOnTokens hreturns hphase hpending _ hwaits
  | run hphase hpending hfind hruns hbehavior =>
    rw [called?_eq hphase hpending hfind hruns hbehavior] at hcalled
    cases hcalled

end Session

namespace Moment

variable {m m' : Moment}

theorem pending_after {o : Outcome Unit} (ahead : List Token)
    (h : (Outcome.session o).phase = .awaitingName → (Outcome.session o).pending = .nothing)
    (hwaits : (after ahead o).session.phase = .awaitingName) :
    (after ahead o).session.pending = .nothing := by
  cases o with
  | ok => exact h hwaits
  | error => rfl

/-- Nothing is pending while code is running, or while a definition waits for its name. -/
theorem Arises.pending_eq_nothing (hm : m.Arises)
    (h : m.isQuiet = true → m.session.phase = .awaitingName) : m.session.pending = .nothing := by
  revert h
  refine hm.invariant (I := fun m => (m.isQuiet = true → m.session.phase = .awaitingName) →
    m.session.pending = .nothing) (fun _ => rfl) ?_
  intro m m' hm ih hnext hwaits
  cases hnext with
  | line | finish => rfl
  | @word s t ahead fuel o hcalled hinterpret =>
    have hreturns : Session.returns { s with location := some t.location } = [] :=
      hm.returns_eq_nil rfl
    have hquiet : (after ahead o).isQuiet = true := by cases o <;> rfl
    exact pending_after ahead
      (Session.pending_of_interprets hreturns hcalled (Session.interpret?_eq_some_iff.mp hinterpret))
      (hwaits hquiet)
  | @call s t ahead entry hcalled =>
    obtain ⟨word, hword, -⟩ := Session.called?_eq_some_iff.mp hcalled
    obtain ⟨-, hpending, -⟩ := Session.exists_of_executed? hword
    exact hpending
  | @turn c ahead hc =>
    obtain ⟨cursor, returns, hturn⟩ := Call.session_turn hc
    show c.turn.session.pending = .nothing
    rw [hturn]
    exact (Frame.step_keeps c.session).pending.trans (ih nofun)
  | @back c ahead hc =>
    have hquiet : (after ahead c.outcome).isQuiet = true := by cases c.outcome <;> rfl
    refine pending_after ahead ?_ (hwaits hquiet)
    intro _
    rw [Call.session_outcome]
    exact ih nofun

/-! ## What waits for its name -/

theorem Arises.tracks (hm : m.Arises) : m.session.Tracks :=
  Leads.kept hm Session.kept_tracks .refl (Session.tracks_of_idle rfl)

/-- The next word of the input becomes the name, whatever it is. -/
theorem next_reading_iff {s : Session} {t : Token} {ahead : List Token}
    (hphase : s.phase = .awaitingName) : (reading s (t :: ahead)).Next m' ↔
      m' = reading (Session.nameDefinition { s with location := some t.location } t.text) ahead := by
  have hinterpret : ∀ fuel, Session.interpret? fuel { s with location := some t.location } t =
      some (.ok () (Session.nameDefinition { s with location := some t.location } t.text)) :=
    fun _ => if_pos hphase
  have hcalled : Session.called? { s with location := some t.location } t = none := by
    rcases h : Session.called? { s with location := some t.location } t with _ | entry
    · rfl
    · obtain ⟨word, hword, -⟩ := Session.called?_eq_some_iff.mp h
      exact absurd hphase (Session.exists_of_executed? hword).1
  constructor
  · intro h
    cases h with
    | word _ ho =>
      rw [hinterpret] at ho
      cases ho
      rfl
    | call hcall =>
      rw [hcalled] at hcall
      cases hcall
  · rintro rfl
    exact .word hcalled (hinterpret 0)

/-- While a definition waits for its name, its word is the newest one and has no name yet, and nothing is
pending. The next word of the input becomes the name and changes nothing else, and until there is one
the definition goes on waiting. And a name that a word has is never changed. -/
theorem Arises.name_is_kept (hm : m.Arises) :
    (m.session.phase = .awaitingName → m.session.pending = .nothing ∧
      ∃ older word entry, m.session.dictionary = Dictionary.add older word ∧ word.name = "" ∧
        word.behavior = .compiled entry ∧
        (∀ name, m.session.dictionary.nameLast? name = some (older.add { word with name })) ∧
        (∀ s t ahead, m = reading s (t :: ahead) → ∀ m', m.Next m' ↔ m' = reading { s with
          dictionary := older.add { word with name := t.text }
          phase := .compiling, location := some t.location } ahead) ∧
        ∀ s m', m = resting s ∨ m = reading s [] → m.Next m' →
          m'.session.dictionary = s.dictionary ∧ m'.session.phase = .awaitingName) ∧
    ∀ m' index word, m.Leads m' → m.session.dictionary.get? index = some word → word.name ≠ "" →
      ∃ word', m'.session.dictionary.get? index = some word' ∧ word'.name = word.name := by
  constructor
  · intro hwaits
    have hopen : m.session.phase ≠ .idle := by simp [hwaits]
    obtain ⟨older, word, entry, hdictionary, hbehavior, hunnamed⟩ := hm.tracks hopen
    have hname : word.name = "" := hunnamed.mpr hwaits
    have hnamed : ∀ name, m.session.dictionary.nameLast? name = some (older.add { word with name }) := by
      intro name
      rw [hdictionary, Dictionary.nameLast?_add older hname]
    refine ⟨hm.pending_eq_nothing fun _ => hwaits, older, word, entry, hdictionary, hname, hbehavior,
      hnamed, ?_, ?_⟩
    · rintro s t ahead rfl m'
      have hphase : s.phase = .awaitingName := hwaits
      have hlast : s.dictionary.nameLast? t.text = some (older.add { word with name := t.text }) :=
        hnamed t.text
      rw [next_reading_iff hphase, Session.nameDefinition, hlast, Option.getD_some]
    · rintro s m' (rfl | rfl) hnext
      · cases hnext
        exact ⟨rfl, hwaits⟩
      · cases hnext
        exact ⟨rfl, hwaits⟩
  · intro m' index word hleads hword hname
    obtain ⟨word', hword', hbecomes⟩ := (hm.evolves hleads).grows index word hword
    exact ⟨word', hword', hbecomes.name hname⟩

/-- In `waiting` the line `: ;` is begun. Its first word becomes a name. -/
theorem waiting_name_is_kept : ∃ colon semicolon, colon.text = ":" ∧
    Arises (reading Session.waiting.startLine [colon, semicolon]) ∧
    (∃ older word, Session.waiting.dictionary = Dictionary.add older word ∧ word.name = "" ∧
      Next (reading Session.waiting.startLine [colon, semicolon])
        (reading { Session.waiting.startLine with
          dictionary := older.add { word with name := ":" }
          phase := .compiling, location := some colon.location } [semicolon])) ∧
    ∀ m', Leads (reading Session.waiting.startLine [colon, semicolon]) m' →
      ∃ word, m'.session.dictionary.get? 17 = some word ∧ word.name = "a" := by
  let colon : Token := ⟨":", ⟨Session.source, 3, 1⟩⟩
  let semicolon : Token := ⟨";", ⟨Session.source, 3, 3⟩⟩
  have htokens : Token.ofLine Session.source Session.waiting.startLine.lines ": ;" =
      [colon, semicolon] := by decide +kernel
  have hline := Next.line Session.waiting ": ;"
  rw [htokens] at hline
  have harises := waiting_arises.leads hline.leads
  obtain ⟨hnaming, hnames⟩ := harises.name_is_kept
  obtain ⟨-, older, word, -, hdictionary, hname, -, -, hnext, -⟩ := hnaming rfl
  refine ⟨colon, semicolon, rfl, harises, ⟨older, word, hdictionary, hname, ?_⟩, ?_⟩
  · exact (hnext _ colon [semicolon] rfl _).mpr rfl
  · intro m' hleads
    exact hnames m' 17 { name := "a", behavior := .compiled 0 } hleads rfl (by decide)

end Moment

end MiniForth
