import MiniForth.Proofs.Compiling
import MiniForth.Proofs.Confined

/-!
# Words without a name

A definition that waits for its name has a hidden word. Until the name is given only code can be at
work, behind a `:` of its own, and to that code the word is the newest one like any other: `reveal` and
`;` make it visible, name or no name.

Where code does neither, every word without a name is hidden. There may be several of them, since a
second definition can be opened before the first one has its name, and then the first one never gets any.

* `Session.Veiled`: the invariant.
* `Confined.hidden_of_unnamed`: words without a name are hidden.
* `not_hidden_of_unnamed`: where one is not.
-/

namespace MiniForth

namespace Session

/-- The primitive reveals no word that still waits for its name. -/
def RevealsNamed (s : Session) (p : Primitive) : Prop :=
  p = .reveal ∨ p = .semicolon → s.phase ≠ .awaitingName

instance (s : Session) (p : Primitive) : Decidable (s.RevealsNamed p) :=
  inferInstanceAs (Decidable (_ → _))

/-- Words without a name are hidden, and if the newest one is such a word, the next token names it. -/
def Veiled (s : Session) : Prop :=
  ∃ older word, s.dictionary = Dictionary.add older word ∧
    (∀ other ∈ older.words, other.name = "" → other.hidden = true) ∧
    (word.name = "" → word.hidden = true ∧ s.phase = .awaitingName)

variable {s t : Session}

theorem veiled_initial : initial.Veiled := by
  let older : Dictionary := Dictionary.empty.addAll Vocabulary.words.dropLast
  refine ⟨older, { name := "0branch", behavior := .primitive .zeroBranch }, rfl, ?_, ?_⟩
  · rw [Dictionary.words_addAll, Dictionary.words_empty, List.nil_append]
    simp [Vocabulary.words]
  · simp

theorem Veiled.congr (hs : s.Veiled) (hdictionary : t.dictionary = s.dictionary)
    (hphase : t.phase = s.phase) : t.Veiled := by
  rw [Veiled, hdictionary, hphase]
  exact hs

theorem Veiled.openDefinition (hs : s.Veiled) : s.openDefinition.Veiled := by
  obtain ⟨older, word, hdictionary, holder, hword⟩ := hs
  refine ⟨s.dictionary, _, rfl, ?_, fun _ => ⟨rfl, rfl⟩⟩
  intro other hother hname
  rw [hdictionary, Dictionary.words_add] at hother
  rcases List.mem_append.mp hother with hother | hother
  · exact holder other hother hname
  · rw [List.mem_singleton.mp hother] at hname ⊢
    exact (hword hname).1

/-- To hide the newest word does no harm, and neither does to reveal it where it has its name. -/
theorem Veiled.setHidden (hs : s.Veiled) {hidden : Bool} (h : s.phase = .awaitingName → hidden = true) :
    Veiled { s with dictionary :=
      (s.dictionary.changeLast? fun word => some { word with hidden }).getD s.dictionary } := by
  obtain ⟨older, word, hdictionary, holder, hword⟩ := hs
  refine ⟨older, { word with hidden }, ?_, holder, fun hname => ⟨h (hword hname).2, (hword hname).2⟩⟩
  show (s.dictionary.changeLast? _).getD s.dictionary = _
  rw [hdictionary, Dictionary.changeLast?_add, Option.map_some, Option.getD_some]

/-- If no name is waited for, the newest word has one, and the phase is of no account. -/
theorem Veiled.of_named (hs : s.Veiled) (hphase : s.phase ≠ .awaitingName)
    (hdictionary : t.dictionary = s.dictionary) : t.Veiled := by
  obtain ⟨older, word, hsplit, holder, hword⟩ := hs
  exact ⟨older, word, hdictionary.trans hsplit, holder, fun hname => absurd (hword hname).2 hphase⟩

theorem Veiled.closeDefinition (hs : s.Veiled) (hphase : s.phase ≠ .awaitingName) :
    s.closeDefinition.Veiled := by
  have hrevealed : s.revealLast.Veiled := hs.setHidden fun h => absurd h hphase
  exact hrevealed.of_named hphase rfl

theorem Veiled.nameDefinition (hs : s.Veiled) {name : String} (hne : name ≠ "") :
    (s.nameDefinition name).Veiled := by
  obtain ⟨older, word, hdictionary, holder, -⟩ := hs
  by_cases hname : word.name = ""
  · refine ⟨older, { word with name }, ?_, holder, fun hempty => absurd hempty hne⟩
    show (s.dictionary.nameLast? name).getD s.dictionary = _
    rw [hdictionary, Dictionary.nameLast?_add older hname, Option.getD_some]
  · -- A name is not given twice.
    refine ⟨older, word, ?_, holder, fun hempty => absurd hempty hname⟩
    show (s.dictionary.nameLast? name).getD s.dictionary = _
    rw [hdictionary, Dictionary.nameLast?, Dictionary.changeLast?_add, if_neg (by simpa using hname)]
    rfl

theorem Veiled.perform (hs : s.Veiled) {p : Primitive} (hp : s.RevealsNamed p) :
    (Outcome.session (p.perform s)).Veiled := by
  generalize h : Outcome.session (p.perform s) = t
  cases Primitive.leaves_of_perform h with
  | nothing | computes => exact hs.congr rfl rfl
  | hide => exact hs.setHidden fun _ => rfl
  | reveal => exact hs.setHidden fun hphase => absurd hphase (hp (.inl rfl))
  | colon => exact hs.openDefinition
  | semicolon => exact hs.closeDefinition (hp (.inr rfl))

theorem kept_veiled : Kept RevealsNamed Veiled where
  congr hs hdictionary _ hphase := hs.congr hdictionary hphase
  perform s cursor p hp hs := by
    have hveiled : Veiled { s with cursor } := hs.congr rfl rfl
    exact hveiled.perform hp
  name _ _ hne _ hs := hs.nameDefinition hne

/-- As long as no word is revealed that waits for its name, every word without a name is hidden. -/
theorem Confined.hidden_of_unnamed (hs : s.Confined RevealsNamed) {index : Nat} {word : Word}
    (hword : s.dictionary.get? index = some word) (hname : word.name = "") : word.hidden = true := by
  obtain ⟨older, newest, hdictionary, holder, hnewest⟩ := hs.invariant kept_veiled veiled_initial
  rw [hdictionary, Dictionary.get?_add] at hword
  split at hword
  · cases hword
    exact (hnewest hname).1
  · rw [← Dictionary.getElem?_words] at hword
    exact holder word (List.mem_of_getElem? hword) hname

/-! ## With and without a reveal -/

/-- A session after the lines `: a branch 7 ;` and `a`. The branch leads to the cell of the number, which
is the index of `:`. -/
def waiting : Session :=
  { Session.initial with
    code       := ⟨#[15, 2, 7, 0]⟩
    cursor     := 4
    dictionary := (Vocabulary.dictionary.add { name := "a", behavior := .compiled 0 }).add
      { name := "", hidden := true, behavior := .compiled 3 }
    mode       := .compile
    phase      := .awaitingName
    lines      := 2 }

theorem waiting_hidden_of_unnamed : waiting.Confined RevealsNamed ∧
    ∃ word, waiting.dictionary.get? 18 = some word ∧ word.name = "" ∧ word.hidden = true := by
  let defined : Session := { waiting with
    dictionary := Vocabulary.dictionary.add { name := "a", behavior := .compiled 0 }
    mode := .immediate, phase := .idle, lines := 1 }
  have hdefine : process? 0 .initial ": a branch 7 ;" = some ({}, defined) := by decide +kernel
  have hcall : defined.process? 3 "a" = some ({}, waiting) := by decide +kernel
  have hfirst : initial.LinePerformsOnly RevealsNamed ": a branch 7 ;" :=
    linePerformsOnly_of_checks (by rw [hdefine]; rfl) (by decide +kernel)
  have hsecond : defined.LinePerformsOnly RevealsNamed "a" :=
    linePerformsOnly_of_checks (by rw [hcall]; rfl) (by decide +kernel)
  have hconfined : waiting.Confined RevealsNamed := .line (.line .initial hfirst hdefine) hsecond hcall
  have hword : waiting.dictionary.get? 18 =
      some { name := "", hidden := true, behavior := .compiled 3 } := rfl
  exact ⟨hconfined, _, hword, rfl, hconfined.hidden_of_unnamed hword rfl⟩

/-- The session after the lines `: a branch 7 reveal ;` and `a`. -/
def revealing : Session :=
  { Session.initial with
    code       := ⟨#[15, 2, 7, 6, 0]⟩
    cursor     := 5
    dictionary := (Vocabulary.dictionary.add { name := "a", behavior := .compiled 0 }).add
      { name := "", behavior := .compiled 3 }
    mode       := .compile
    phase      := .awaitingName
    lines      := 2 }

/-- A word without a name is not always hidden. -/
theorem not_hidden_of_unnamed :
    ¬ ∀ (s : Session) (index : Nat) (word : Word), s.Reachable → s.dictionary.get? index = some word →
      word.name = "" → word.hidden = true := by
  intro hhidden
  let defined : Session := { revealing with
    dictionary := Vocabulary.dictionary.add { name := "a", behavior := .compiled 0 }
    mode := .immediate, phase := .idle, lines := 1 }
  have hdefine : process? 0 .initial ": a branch 7 reveal ;" = some ({}, defined) := by decide +kernel
  have hcall : defined.process? 4 "a" = some ({}, revealing) := by decide +kernel
  have hreachable : revealing.Reachable := .line (.line .initial hdefine) hcall
  have hidden := hhidden revealing 18 { name := "", behavior := .compiled 3 } hreachable rfl rfl
  cases hidden

end Session

end MiniForth
