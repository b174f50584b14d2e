import MiniForth.Proofs.Compiling
import MiniForth.Proofs.Confined

/-!
# Open definitions

Between `:` and `;` a definition is open. The one that was opened last is the newest word all that time,
whatever is done to the mode, to the flags of the word and to code in between, so it is the one that the
next `;` reveals.

That a second `:` is refused depends on the mode, and not on whether a definition is open. The two come
apart at `[`: behind it a second definition is opened, and the first one is never revealed.

* `Session.Tracks`: the invariant.
* `Reachable.colon_in_definition`: what `:` does to an open definition.
* `not_rejects_nested_colon`: where it is not refused.
-/

namespace MiniForth

namespace Session

/-! ## The invariant -/

/-- The definition that is open is the newest word, and it has a name unless it still waits for one. -/
def Tracks (s : Session) : Prop :=
  s.phase ≠ .idle → ∃ older word entry, s.dictionary = Dictionary.add older word ∧
    word.behavior = .compiled entry ∧ (word.name = "" ↔ s.phase = .awaitingName)

variable {s t : Session}

theorem Tracks.congr (hs : s.Tracks) (hdictionary : t.dictionary = s.dictionary)
    (hphase : t.phase = s.phase) : t.Tracks := by
  intro hopen
  rw [hphase] at hopen ⊢
  rw [hdictionary]
  exact hs hopen

theorem tracks_of_idle (hphase : s.phase = .idle) : s.Tracks := by
  intro hopen
  exact absurd hphase hopen

theorem tracks_openDefinition (s : Session) : s.openDefinition.Tracks := by
  intro _
  exact ⟨s.dictionary, _, s.cursor, rfl, rfl, iff_of_true rfl rfl⟩

/-- To hide the definition or to reveal it does no harm. -/
theorem Tracks.setHidden (hs : s.Tracks) (hidden : Bool) : Tracks { s with
    dictionary := (s.dictionary.changeLast? fun word => some { word with hidden }).getD s.dictionary } := by
  intro hopen
  obtain ⟨older, word, entry, hdictionary, hbehavior, hname⟩ := hs hopen
  refine ⟨older, { word with hidden }, entry, ?_, hbehavior, hname⟩
  show (s.dictionary.changeLast? _).getD s.dictionary = _
  rw [hdictionary, Dictionary.changeLast?_add, Option.map_some, Option.getD_some]

theorem Tracks.nameDefinition (hs : s.Tracks) (hphase : s.phase = .awaitingName) {name : String}
    (hne : name ≠ "") : (s.nameDefinition name).Tracks := by
  have hopen : s.phase ≠ .idle := by
    rw [hphase]
    simp
  obtain ⟨older, word, entry, hdictionary, hbehavior, hname⟩ := hs hopen
  intro _
  refine ⟨older, { word with name }, entry, ?_, hbehavior, iff_of_false hne ?_⟩
  · show (s.dictionary.nameLast? name).getD s.dictionary = _
    rw [hdictionary, Dictionary.nameLast?_add older (hname.mpr hphase), Option.getD_some]
  · intro hwaits
    cases hwaits

theorem Tracks.perform (hs : s.Tracks) (p : Primitive) :
    (Outcome.session (p.perform s)).Tracks := by
  generalize h : Outcome.session (p.perform s) = t
  cases Primitive.leaves_of_perform h with
  | nothing | computes => exact hs.congr rfl rfl
  | hide => exact hs.setHidden true
  | reveal => exact hs.setHidden false
  | colon => exact s.tracks_openDefinition
  | semicolon => exact tracks_of_idle rfl

theorem kept_tracks : Kept (fun _ _ => True) Tracks where
  congr hs hdictionary _ hphase := hs.congr hdictionary hphase
  perform s cursor p _ hs := by
    have htracks : Tracks { s with cursor } := hs.congr rfl rfl
    exact htracks.perform p
  name _ _ hne hphase hs := hs.nameDefinition hphase hne

theorem Reachable.tracks (hs : s.Reachable) : s.Tracks :=
  hs.confined.invariant kept_tracks (tracks_of_idle rfl)

/-! ## A second definition -/

/-- Nothing is pending between lines. -/
theorem Reachable.pending_eq_nothing (hs : s.Reachable) : s.pending = .nothing := by
  rw [← hs.endLine_eq]
  rfl

/-- While a definition is open, it is the newest word, and `;` reveals it. In compile mode a `:` is refused
and changes nothing. In immediate mode it opens another definition, which is then the newest word. -/
theorem Reachable.colon_in_definition (hs : s.Reachable) (hphase : s.phase = .compiling) {token : Token}
    (hcolon : s.dictionary.Names token.text .colon) :
    (∃ older word entry, s.dictionary = Dictionary.add older word ∧ word.name ≠ "" ∧
      word.behavior = .compiled entry ∧ ∀ fuel semicolon,
        s.dictionary.Names semicolon.text .semicolon → ∃ o, s.interpret? fuel semicolon = some o ∧
          (Outcome.session o).dictionary.find? word.name =
            some (older.size, { word with hidden := false })) ∧
    ∀ fuel, s.interpret? fuel token = some
      (if s.mode = .compile then .error (.ofCause s.location .nestedColon) s
      else .ok () s.openDefinition) := by
  have hreturns := hs.returns_eq_nil
  have hpending := hs.pending_eq_nothing
  have hphase' : s.phase ≠ .awaitingName := by
    rw [hphase]
    simp
  have hopen : s.phase ≠ .idle := by
    rw [hphase]
    simp
  obtain ⟨older, word, entry, hdictionary, hbehavior, hname⟩ := hs.tracks hopen
  have hname : word.name ≠ "" := mt hname.mp hphase'
  constructor
  · refine ⟨older, word, entry, hdictionary, hname, hbehavior, ?_⟩
    intro fuel semicolon hsemicolon
    refine ⟨_, interpret?_of_defines hs.standard hphase' hpending rfl (by decide) hsemicolon fuel, ?_⟩
    have hclosed : Outcome.session (Primitive.semicolon.performOnTokens s) = s.closeDefinition := by
      rw [performOnTokens_semicolon hreturns]
      split <;> rfl
    rw [hclosed, closeDefinition_eq hdictionary]
    refine (older.find?_add _ word.name).trans (if_pos ?_)
    simp [Word.isVisible, hname]
  · intro fuel
    rw [interpret?_of_defines hs.standard hphase' hpending rfl (by decide) hcolon,
      performOnTokens_colon hreturns]

/-- A session after `: a 1`. -/
def unfinished : Session :=
  { Session.initial with
    code       := ⟨#[2, 1]⟩
    cursor     := 2
    dictionary := Vocabulary.dictionary.add { name := "a", hidden := true, behavior := .compiled 0 }
    mode       := .compile
    phase      := .compiling
    lines      := 1 }

theorem unfinished_colon : unfinished.Reachable ∧
    unfinished.interpret? 0 { text := ":", location := { path := source, line := 2, column := 1 } } =
      some (.error (.ofCause none .nestedColon) unfinished) := by
  have hprocess : process? 0 .initial ": a 1" = some ({}, unfinished) := by decide +kernel
  have hreachable : unfinished.Reachable := .line .initial hprocess
  have hcolon : unfinished.dictionary.Names ":" .colon := by decide +kernel
  exact ⟨hreachable, (hreachable.colon_in_definition rfl hcolon).2 0⟩

/-- The session after `: a [`. -/
def suspended : Session :=
  { Session.initial with
    dictionary := Vocabulary.dictionary.add { name := "a", hidden := true, behavior := .compiled 0 }
    phase      := .compiling
    lines      := 1 }

/-- A `:` in an open definition is not always refused. -/
theorem not_rejects_nested_colon :
    ¬ ∀ (s : Session) (token : Token) (fuel : Nat), s.Reachable → s.phase = .compiling →
      s.dictionary.Names token.text .colon →
      s.interpret? fuel token = some (.error (.ofCause s.location .nestedColon) s) := by
  intro hrejects
  have hprocess : process? 0 .initial ": a [" = some ({}, suspended) := by decide +kernel
  have hreachable : suspended.Reachable := .line .initial hprocess
  let colon : Token := { text := ":", location := { path := source, line := 2, column := 1 } }
  have hcolon : suspended.dictionary.Names colon.text .colon := by decide +kernel
  have hrejected := hrejects suspended colon 0 hreachable rfl hcolon
  have hopened : suspended.interpret? 0 colon = some (.ok () suspended.openDefinition) := by
    rw [interpret?_of_defines hreachable.standard (by decide) rfl rfl (by decide) hcolon,
      performOnTokens_colon rfl]
    rfl
  rw [hopened] at hrejected
  cases hrejected

end Session

end MiniForth
