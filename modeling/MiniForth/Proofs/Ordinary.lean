import MiniForth.Proofs.Compiling

/-!
# Ordinary sessions

A session is ordinary when the words that can make code faulty, `lit`, `branch`, `0branch` and
`reveal`, are kept out of definitions. Whatever else its lines hold, errors and unfinished
definitions included, every line comes to an end and meets no memory fault.

The invariant is `Session.Tidy`: code memory has been written up to the cursor and no further, every
definition that was begun leads to the end of code memory, and every word that can be found is sound.

* `Tidy.interprets`: every token keeps the invariant.
* `Ordinary.tidy`: so it holds of every ordinary session.
* `Ordinary.safe`: what this means for the next line.
-/

namespace MiniForth

namespace Session

/-! ## Ordinary lines -/

/-- A word that is looked up is none of `lit`, `branch` and `0branch` in compile mode, and it is never
`reveal`. -/
def Permits (s : Session) (t : Token) : Prop :=
  ∀ found ∈ s.lookedUp? t,
    (s.mode = .compile → found.2.behavior ≠ .primitive .literal ∧
      found.2.behavior ≠ .primitive .branch ∧ found.2.behavior ≠ .primitive .zeroBranch) ∧
    found.2.behavior ≠ .primitive .reveal

instance (s : Session) (t : Token) : Decidable (s.Permits t) := by
  unfold Permits
  infer_instance

/-- The line holds nothing that an ordinary session must not come to. -/
def Admits (s : Session) (line : String) : Prop :=
  ∀ s' t, Meets s.startLine (Token.ofLine source s.startLine.lines line) s' t →
    s'.Permits t ∧ s'.Addressable

/-- A session that such lines lead to. -/
inductive Ordinary : Session → Prop where
  | initial : Ordinary .initial
  | line {s t : Session} {fuel : Nat} {text : String} {response : Response} :
      Ordinary s → s.Admits text → s.process? fuel text = some (response, t) → Ordinary t

/-! ## The invariant -/

/-- Nothing runs, the cursor is at the end of code memory, every definition leads to that end, and every word
that is not hidden is sound. -/
structure Tidy (s : Session) : Prop where
  returns  : s.returns = []
  cursor   : s.cursor = s.code.size
  standard : s.dictionary.Standard
  /-- A definition, finished or not, leads to the end of code memory. -/
  leads : ∀ index word entry, s.dictionary.get? index = some word →
    word.behavior = .compiled entry → s.Sound (some s.code.size) entry
  /-- A word that is not hidden is sound. -/
  sound : ∀ index word entry, s.dictionary.get? index = some word →
    word.behavior = .compiled entry → word.hidden = false → s.Sound none entry

variable {s t : Session}

theorem tidy_initial : initial.Tidy := by
  have hnone : ∀ index word entry, Vocabulary.dictionary.get? index = some word →
      word.behavior ≠ .compiled entry := by
    intro index word entry hword hentry
    have hmem : word ∈ Vocabulary.words := by
      rw [← Vocabulary.words_dictionary]
      apply List.mem_of_getElem?
      rw [Dictionary.getElem?_words, hword]
    have hall : ∀ w ∈ Vocabulary.words, ∀ e, w.behavior ≠ .compiled e := by
      simp [Vocabulary.words]
    exact hall word hmem entry hentry
  refine ⟨rfl, rfl, Dictionary.standard_vocabulary, ?_, ?_⟩
  · intro index word entry hword hentry
    exact absurd hentry (hnone index word entry hword)
  · intro index word entry hword hentry
    exact absurd hentry (hnone index word entry hword)

/-- More code after what is there keeps a session tidy, if it leads to its own end. -/
theorem Tidy.extend (hs : s.Tidy) (hreturns : t.returns = []) (hcursor : t.cursor = t.code.size)
    (hdictionary : t.dictionary = s.dictionary) (hcode : s.code.toList <+: t.code.toList)
    (hlead : t.Sound (some t.code.size) s.code.size) : t.Tidy := by
  have hcarries : s.dictionary.Carries t.dictionary := by
    rw [hdictionary]
    exact .refl _
  refine ⟨hreturns, hcursor, hdictionary ▸ hs.standard, ?_, ?_⟩
  · intro index word entry hword hentry
    rw [hdictionary] at hword
    exact ((hs.leads index word entry hword hentry).mono hcode hcarries).append hlead
  · intro index word entry hword hentry hvisible
    rw [hdictionary] at hword
    exact (hs.sound index word entry hword hentry hvisible).mono hcode hcarries

theorem Tidy.congr (hs : s.Tidy) (hcode : t.code = s.code) (hdictionary : t.dictionary = s.dictionary)
    (hcursor : t.cursor = s.cursor) (hreturns : t.returns = []) : t.Tidy := by
  refine hs.extend hreturns ?_ hdictionary (isPrefix_of_eq hcode) ?_
  · rw [hcursor, hcode, hs.cursor]
  · rw [hcode]
    exact .here _

/-! ## Compiling -/

theorem Tidy.compileWord (hs : s.Tidy) {index : Nat}
    (hlead : (s.compileWord index).Sound (some (s.code.size + 1)) s.code.size) :
    (s.compileWord index).Tidy := by
  refine hs.extend hs.returns ?_ rfl (prefix_compile hs.cursor _) ?_
  · show s.cursor + 1 = (s.compile _).code.size
    rw [size_compile hs.cursor, hs.cursor]
  · show Session.Sound _ (some (s.compile _).code.size) _
    rw [size_compile hs.cursor]
    exact hlead

theorem Tidy.compileNumber (hs : s.Tidy) (value : Cell) : (s.compileNumber value).Tidy := by
  have hcursor := cursor_compileWord hs.cursor Vocabulary.literalIndex
  have hsize : (s.compileWord Vocabulary.literalIndex).code.size = s.code.size + 1 :=
    size_compile hs.cursor _
  obtain ⟨word, hword, hbecomes⟩ := hs.standard.vocabulary _ _ Vocabulary.get?_literalIndex
  have hat : (s.compileNumber value).behaviorAt? s.code.size = some (.primitive .literal) := by
    apply behaviorAt?_of_isPrefix (prefix_compile hcursor value) (.refl _)
    rw [behaviorAt?_compileWord hs.cursor (by decide) hword, hbecomes.behavior]
  have hvalue : (s.compileNumber value).code.get? (s.code.size + 1) = some value := by
    rw [← hsize]
    exact get?_compile hcursor value
  refine hs.extend hs.returns ?_ rfl (prefix_compileNumber hs.cursor value) ?_
  · show s.cursor + 1 + 1 = (Session.compile _ value).code.size
    rw [size_compile hcursor, hsize, hs.cursor]
  · apply Sound.number hat hvalue
    rw [Session.compileNumber, size_compile hcursor, hsize]
    exact .here _

/-! ## Definitions -/

/-- Changes of the dictionary keep a session tidy, if they reveal no word and add only hidden ones, at
the end of code memory. -/
theorem Tidy.evolve (hs : s.Tidy) (hreturns : t.returns = s.returns) (hcode : t.code = s.code)
    (hcursor : t.cursor = s.cursor) (hevolves : s.dictionary.Evolves t.dictionary)
    (hwords : ∀ index word, t.dictionary.get? index = some word →
      (∃ old, s.dictionary.get? index = some old ∧ word.behavior = old.behavior ∧
        (word.hidden = false → old.hidden = false)) ∨
      (word.behavior = .compiled s.code.size ∧ word.hidden = true)) : t.Tidy := by
  have hgrown : s.code.toList <+: t.code.toList := isPrefix_of_eq hcode
  refine ⟨hreturns.trans hs.returns, ?_, hs.standard.evolves hevolves, ?_, ?_⟩
  · rw [hcursor, hcode, hs.cursor]
  · intro index word entry hword hentry
    rw [hcode]
    rcases hwords index word hword with ⟨old, hold, hbehavior, -⟩ | ⟨hnew, -⟩
    · exact (hs.leads index old entry hold (hbehavior ▸ hentry)).mono hgrown hevolves.grows.carries
    · rw [hnew] at hentry
      cases hentry
      exact .here _
  · intro index word entry hword hentry hvisible
    rcases hwords index word hword with ⟨old, hold, hbehavior, hhidden⟩ | ⟨-, hhidden⟩
    · exact (hs.sound index old entry hold (hbehavior ▸ hentry) (hhidden hvisible)).mono hgrown
        hevolves.grows.carries
    · rw [hhidden] at hvisible
      cases hvisible

theorem Tidy.openDefinition (hs : s.Tidy) : s.openDefinition.Tidy := by
  refine hs.evolve rfl rfl rfl s.evolves_openDefinition ?_
  intro index word hword
  have hadd : s.openDefinition.dictionary.get? index = _ := s.dictionary.get?_add _ index
  rw [hword] at hadd
  split at hadd
  · right
    cases hadd
    exact ⟨congrArg Behavior.compiled hs.cursor, rfl⟩
  · left
    exact ⟨word, hadd.symm, rfl, id⟩

/-- A change of the newest word that does not reveal it. -/
theorem Tidy.changeLast (hs : s.Tidy) {f : Word → Option Word}
    (hf : ∀ w w', f w = some w' → w.Becomes w' ∧ (w'.hidden = false → w.hidden = false))
    (hevolves : s.dictionary.Evolves ((s.dictionary.changeLast? f).getD s.dictionary)) :
    Tidy { s with dictionary := (s.dictionary.changeLast? f).getD s.dictionary } := by
  refine hs.evolve rfl rfl rfl hevolves ?_
  intro index word hword
  left
  obtain ⟨old, hold, rfl | hchanged⟩ := Dictionary.exists_of_get?_changeLast? hword
  · exact ⟨word, hold, rfl, id⟩
  · obtain ⟨hbecomes, hhidden⟩ := hf _ _ hchanged
    exact ⟨old, hold, hbecomes.behavior, hhidden⟩

theorem Tidy.hideLast (hs : s.Tidy) : s.hideLast.Tidy := by
  refine hs.changeLast ?_ s.evolves_hideLast
  rintro w _ ⟨⟩
  refine ⟨w.becomes_setHidden true, ?_⟩
  intro h
  cases h

theorem Tidy.nameDefinition (hs : s.Tidy) (name : String) : (s.nameDefinition name).Tidy := by
  refine (hs.changeLast ?_ (s.evolves_nameDefinition name)).congr rfl rfl rfl hs.returns
  intro w w' hw
  refine ⟨Dictionary.becomes_of_name hw, ?_⟩
  intro hhidden
  split at hw
  · cases hw
    exact hhidden
  · cases hw

theorem prefix_closeDefinition (hcursor : s.cursor = s.code.size) :
    s.code.toList <+: s.closeDefinition.code.toList := prefix_compile hcursor _

/-- The end of a definition makes every definition sound, for all of them lead to it. -/
theorem Tidy.closeDefinition (hs : s.Tidy) : s.closeDefinition.Tidy := by
  have hcode := prefix_closeDefinition hs.cursor
  have hcarries := s.evolves_closeDefinition.grows.carries
  have hexit : s.closeDefinition.behaviorAt? s.code.size = some (.primitive .exit) := by
    obtain ⟨word, hword, hbecomes⟩ := hs.standard.vocabulary _ _ Vocabulary.get?_exitIndex
    have hat := behaviorAt?_compileWord hs.cursor (by decide) hword
    rw [hbecomes.behavior] at hat
    have hgrown := (s.compileWord Vocabulary.exitIndex).evolves_revealLast.grows.carries
    have hsame : (s.compileWord Vocabulary.exitIndex).code.toList <+:
        s.closeDefinition.code.toList := List.prefix_refl _
    exact behaviorAt?_of_isPrefix hsame hgrown hat
  have hall : ∀ till index word entry, s.closeDefinition.dictionary.get? index = some word →
      word.behavior = .compiled entry → s.closeDefinition.Sound till entry := by
    intro till index word entry hword hentry
    obtain ⟨old, hold, hbehavior⟩ : ∃ old, s.dictionary.get? index = some old ∧
        word.behavior = old.behavior := by
      obtain ⟨old, hold, rfl | hreveal⟩ := Dictionary.exists_of_get?_changeLast? hword
      · exact ⟨word, hold, rfl⟩
      · cases hreveal
        exact ⟨old, hold, rfl⟩
    -- The definition led to the old end of code memory, and there the `exit` stands now.
    exact ((hs.leads index old entry hold (hbehavior ▸ hentry)).mono hcode hcarries).append
      (.exit hexit)
  refine ⟨hs.returns, ?_, hs.standard.evolves s.evolves_closeDefinition, ?_, ?_⟩
  · show s.cursor + 1 = (s.compile _).code.size
    rw [size_compile hs.cursor, hs.cursor]
  · intro index word entry
    exact hall _ index word entry
  · intro index word entry hword hentry _
    exact hall none index word entry hword hentry

/-! ## Tokens -/

theorem hidden_of_find? {d : Dictionary} {name : String} {index : Nat} {word : Word}
    (h : d.find? name = some (index, word)) : word.hidden = false := by
  have hvisible := (Dictionary.find?_eq_some h).2.2.1
  simp only [Word.isVisible, Bool.and_eq_true, Bool.not_eq_true'] at hvisible
  exact hvisible.1

/-- The word of a permitted token can be compiled. -/
theorem Tidy.compileToken (hs : s.Tidy) {token : Token} {index : Nat} {word : Word}
    (hpermits : s.Permits token) (haddressable : s.Addressable)
    (hphase : s.phase ≠ .awaitingName) (hpending : s.pending = .nothing)
    (hfind : s.dictionary.find? token.text = some (index, word)) (hmode : s.mode = .compile)
    (himmediate : word.immediate = false) : (s.compileWord index).Tidy := by
  obtain ⟨hlt, hword, -, -⟩ := Dictionary.find?_eq_some hfind
  have hat := behaviorAt?_compileWord hs.cursor (Nat.lt_of_lt_of_le hlt haddressable) hword
  have hhere : (s.compileWord index).Sound (some (s.code.size + 1)) (s.code.size + 1) := .here _
  apply hs.compileWord
  rcases hbehavior : word.behavior with p | entry
  · rw [hbehavior] at hat
    obtain ⟨hsteering, hreveal⟩ :=
      hpermits (index, word) ((lookedUp?_eq hphase hpending).trans hfind)
    obtain ⟨hliteral, hbranch, hzeroBranch⟩ := hsteering hmode
    rw [hbehavior] at hliteral hbranch hzeroBranch hreveal
    -- Words that work on definitions are executed even in compile mode, all but `reveal`.
    have hdefines : p.defines = false := by
      rcases hp : p.defines with _ | _
      · rfl
      · have hne : p ≠ .reveal := by
          rintro rfl
          exact hreveal rfl
        rw [hs.standard.immediate_of_defines hword hbehavior hp hne] at himmediate
        cases himmediate
    by_cases hexit : p = .exit
    · subst hexit
      exact .exit hat
    · have hsteers : p.steers = false := by
        cases p
        case exit => exact absurd rfl hexit
        case literal => exact absurd rfl hliteral
        case branch => exact absurd rfl hbranch
        case zeroBranch => exact absurd rfl hzeroBranch
        all_goals rfl
      exact .compute hat hdefines hsteers hhere
  · rw [hbehavior] at hat
    have hsound := hs.sound index word entry hword hbehavior (hidden_of_find? hfind)
    exact .call hat (hsound.mono (prefix_compile hs.cursor _) (.refl _)) hhere

/-- What a token, or all tokens of a line, make of a tidy session. -/
structure Safely (s : Session) (o : Outcome Unit) : Prop where
  tidy      : (Outcome.session o).Tidy
  code      : s.code.toList <+: (Outcome.session o).code.toList
  faultless : o.Faultless

theorem Tidy.perform (hs : s.Tidy) {p : Primitive} (hreveal : p ≠ .reveal) :
    (Outcome.session (p.perform s)).Tidy ∧
      s.code.toList <+: (Outcome.session (p.perform s)).code.toList := by
  have hclose := prefix_closeDefinition hs.cursor
  generalize h : Outcome.session (p.perform s) = t
  cases Primitive.leaves_of_perform h with
  | nothing | computes => exact ⟨hs.congr rfl rfl rfl hs.returns, List.prefix_refl _⟩
  | hide => exact ⟨hs.hideLast, List.prefix_refl _⟩
  | reveal => exact absurd rfl hreveal
  | colon => exact ⟨hs.openDefinition, List.prefix_refl _⟩
  | semicolon => exact ⟨hs.closeDefinition, hclose⟩

theorem Tidy.performOnTokens (hs : s.Tidy) {p : Primitive} (hreveal : p ≠ .reveal) :
    s.Safely (p.performOnTokens s) := by
  obtain ⟨htidy, hcode⟩ := hs.perform hreveal
  rw [performOnTokens_eq p hs.returns]
  rcases h : p.perform s with ⟨_ | _ | _ | _, t⟩ | ⟨f, t⟩
  all_goals rw [h] at htidy hcode
  -- At the top level `exit` has nothing to return from. That is an underflow, not a memory fault.
  case error => exact ⟨htidy, hcode, kind_of_perform_error h⟩
  case ok.exit =>
    refine ⟨htidy, hcode, ?_⟩
    intro hkind
    cases hkind
  all_goals exact ⟨htidy.congr rfl rfl rfl htidy.returns, hcode, trivial⟩

/-- A call of a word that can be found. -/
theorem Tidy.run? (hs : s.Tidy) {entry : Nat} (hsound : s.Sound none entry) :
    ∃ fuel o, s.run? fuel entry = some o ∧ s.Safely o := by
  obtain ⟨fuel, o, hrun, hsame, hcursor, hfaultless⟩ := hsound.run? hs.returns
  have htidy := hs.congr hsame.code hsame.dictionary hcursor (returns_of_run? hrun)
  exact ⟨fuel, o, hrun, htidy, isPrefix_of_eq hsame.code, hfaultless⟩

theorem Tidy.interprets (hs : s.Tidy) {token : Token} (hpermits : s.Permits token)
    (haddressable : s.Addressable) {fuel : Nat} {o : Outcome Unit}
    (h : s.Interprets fuel token o) : s.Safely o := by
  cases h with
  | name => exact ⟨hs.nameDefinition token.text, List.prefix_refl _, trivial⟩
  | skip | literal | push =>
    exact ⟨hs.congr rfl rfl rfl hs.returns, List.prefix_refl _, trivial⟩
  | noLiteral | unknown =>
    refine ⟨hs.congr rfl rfl rfl hs.returns, List.prefix_refl _, ?_⟩
    intro hkind
    cases hkind
  | @compileNumber value => exact ⟨hs.compileNumber value, prefix_compileNumber hs.cursor value, trivial⟩
  | compileWord hphase hpending hfind hmode himmediate =>
    have htidy :=
      hs.compileToken hpermits haddressable hphase hpending hfind hmode himmediate
    exact ⟨htidy, prefix_compile hs.cursor _, trivial⟩
  | perform hphase hpending hfind _ hp =>
    apply hs.performOnTokens
    rintro rfl
    exact (hpermits _ ((lookedUp?_eq hphase hpending).trans hfind)).2 hp
  | run _ _ hfind _ hentry hrun =>
    have hword := (Dictionary.find?_eq_some hfind).2.1
    obtain ⟨fuel', o', hrun', hsafe⟩ :=
      hs.run? (hs.sound _ _ _ hword hentry (hidden_of_find? hfind))
    rwa [run?_unique hrun' hrun]

/-- With enough fuel a token comes to its end. -/
theorem Tidy.exists_interpret? (hs : s.Tidy) (token : Token) :
    ∃ fuel o, s.interpret? fuel token = some o := by
  by_cases hphase : s.phase = .awaitingName
  · exact ⟨0, _, interpret?_eq_some_iff.mpr (.name hphase)⟩
  · cases hpending : s.pending with
    | skip => exact ⟨0, _, interpret?_eq_some_iff.mpr (.skip hphase hpending)⟩
    | literal =>
      rcases hvalue : token.number? with _ | value
      · exact ⟨0, _, interpret?_eq_some_iff.mpr (.noLiteral hphase hpending hvalue)⟩
      · exact ⟨0, _, interpret?_eq_some_iff.mpr (.literal hphase hpending hvalue)⟩
    | nothing =>
      rcases hfind : s.dictionary.find? token.text with _ | ⟨index, word⟩
      · refine ⟨0, takeNumber token s, ?_⟩
        rw [interpret?_of_nothing hphase hpending, lookUp?, hfind]
      · by_cases hcompiles : s.mode = .compile ∧ word.immediate = false
        · exact ⟨0, _, interpret?_eq_some_iff.mpr
            (.compileWord hphase hpending hfind hcompiles.1 hcompiles.2)⟩
        · rcases hbehavior : word.behavior with p | entry
          · exact ⟨0, _, interpret?_eq_some_iff.mpr
              (.perform hphase hpending hfind hcompiles hbehavior)⟩
          · have hword := (Dictionary.find?_eq_some hfind).2.1
            obtain ⟨fuel, o, hrun, -⟩ :=
              hs.run? (hs.sound _ _ _ hword hbehavior (hidden_of_find? hfind))
            exact ⟨fuel, o, interpret?_eq_some_iff.mpr
              (.run hphase hpending hfind hcompiles hbehavior hrun)⟩

/-! ## Lines -/

theorem Safely.trans (hst : s.Safely (.ok () t)) {o : Outcome Unit} (h : t.Safely o) :
    s.Safely o :=
  ⟨h.tidy, hst.code.trans h.code, h.faultless⟩

/-- The tokens of an ordinary line come to an end, and they keep the session tidy. -/
theorem Tidy.interpretAll? {ts : List Token} (hs : s.Tidy)
    (hmeets : ∀ s' t, Meets s ts s' t → s'.Permits t ∧ s'.Addressable) :
    ∃ fuel o, Session.interpretAll? fuel s ts = some o ∧ s.Safely o := by
  induction ts generalizing s with
  | nil => exact ⟨0, _, rfl, hs, List.prefix_refl _, trivial⟩
  | cons t ts ih =>
    have hhere : Tidy { s with location := some t.location } := hs.congr rfl rfl rfl hs.returns
    obtain ⟨hpermits, haddressable⟩ := hmeets _ _ .head
    obtain ⟨m, o, hfirst⟩ := hhere.exists_interpret? t
    have hsafe : s.Safely o := by
      obtain ⟨htidy, hcode, hfaultless⟩ :=
        hhere.interprets hpermits haddressable (interpret?_eq_some_iff.mp hfirst)
      exact ⟨htidy, hcode, hfaultless⟩
    cases o with
    | error f u =>
      have hline := interpretAll?_cons_of_error hfirst ts
      exact ⟨m, _, hline, hsafe.tidy, hsafe.code, hsafe.faultless⟩
    | ok _ u =>
      -- The token and the rest of the line come with their own fuel; the larger one does for both.
      obtain ⟨n, o, hrest, hsafe'⟩ := ih hsafe.tidy fun s' t' h => hmeets s' t' (.tail hfirst h)
      refine ⟨max m n, o, ?_, hsafe.trans hsafe'⟩
      rw [interpretAll?_cons_of_ok (interpret?_mono (Nat.le_max_left m n) hfirst)]
      exact interpretAll?_mono (Nat.le_max_right m n) hrest

theorem failure_respond_faultless {o : Outcome Unit} (h : o.Faultless) {f : Failure}
    (hf : (respond o).1.failure = some f) : f.kind ≠ .memoryFault := by
  cases o with
  | ok _ u => cases hf
  | error g u =>
    cases hf
    exact h

/-- An ordinary line comes to its end, whatever it holds. -/
theorem Tidy.process? (hs : s.Tidy) {text : String} (hadmits : s.Admits text) :
    ∃ fuel o, Session.process? fuel s text = some (respond o) ∧ s.Safely o := by
  have hstart : s.startLine.Tidy := hs.congr rfl rfl rfl hs.returns
  obtain ⟨fuel, o, ho, hsafe⟩ := hstart.interpretAll? hadmits
  refine ⟨fuel, o, ?_, hsafe.tidy, hsafe.code, hsafe.faultless⟩
  rw [Session.process?, ho, Option.map_some]

theorem process?_unique {m n : Nat} {text : String} {r r' : Response × Session}
    (h : s.process? m text = some r) (h' : s.process? n text = some r') : r' = r := by
  obtain ⟨o, ho, rfl⟩ := Option.map_eq_some_iff.mp h
  obtain ⟨o', ho', rfl⟩ := Option.map_eq_some_iff.mp h'
  rw [interpretAll?_unique ho ho']

theorem Tidy.line (hs : s.Tidy) {text : String} (hadmits : s.Admits text) {fuel : Nat}
    {response : Response} (h : s.process? fuel text = some (response, t)) :
    t.Tidy ∧ s.code.toList <+: t.code.toList ∧
      ∀ f, response.failure = some f → f.kind ≠ .memoryFault := by
  obtain ⟨fuel', o, ho, hsafe⟩ := hs.process? hadmits
  have hr : (response, t) = respond o := process?_unique ho h
  have ht : t = (Outcome.session o).endLine := by rw [← snd_respond, ← hr]
  subst ht
  refine ⟨hsafe.tidy.congr rfl rfl rfl hsafe.tidy.returns, hsafe.code, ?_⟩
  intro f hf
  have hresponse : response = (respond o).1 := by rw [← hr]
  rw [hresponse] at hf
  exact failure_respond_faultless hsafe.faultless hf

theorem Ordinary.tidy (hs : s.Ordinary) : s.Tidy := by
  induction hs with
  | initial => exact tidy_initial
  | line _ hadmits h ih => exact (ih.line hadmits h).1

/-- In an ordinary session every line comes to an end and reports no memory fault. Code memory has
been written up to the cursor, before and after, and what was in it stays. -/
theorem Ordinary.safe (hs : s.Ordinary) {text : String} (hadmits : s.Admits text) :
    (∃ fuel, (s.process? fuel text).isSome) ∧
      ∀ fuel response t, s.process? fuel text = some (response, t) →
        (∀ f, response.failure = some f → f.kind ≠ .memoryFault) ∧
          s.cursor = s.code.size ∧ t.cursor = t.code.size ∧
          s.code.toList <+: t.code.toList := by
  constructor
  · obtain ⟨fuel, o, ho, -⟩ := hs.tidy.process? hadmits
    exact ⟨fuel, by rw [ho]; rfl⟩
  · intro fuel response t h
    obtain ⟨htidy, hcode, hfaultless⟩ := hs.tidy.line hadmits h
    exact ⟨hfaultless, hs.tidy.cursor, htidy.cursor, hcode⟩

/-- A line that interrupts a definition, goes on with it, and ends it twice, so that it fails. -/
def unevenLine : String := ": up 1 + ; : lost [ 2 up . ] 3 ; ; 4"

theorem unevenLine_safe : initial.Ordinary ∧ initial.Admits unevenLine ∧
    ∃ response t, initial.process? 9 unevenLine = some (response, t) ∧ t.cursor = t.code.size := by
  have hadmits : initial.Admits unevenLine := by
    intro s' t h
    have hall : ∀ found ∈ met 9 initial.startLine (Token.ofLine source 1 unevenLine),
        found.1.Permits found.2 ∧ found.1.Addressable := by decide +kernel
    exact hall _ (mem_met h (by decide +kernel))
  have hends : (initial.process? 9 unevenLine).isSome := by decide +kernel
  obtain ⟨⟨response, t⟩, ht⟩ := Option.isSome_iff_exists.mp hends
  obtain ⟨-, -, hcursor, -⟩ := (Ordinary.safe .initial hadmits).2 9 response t ht
  exact ⟨.initial, hadmits, response, t, ht, hcursor⟩

end Session

end MiniForth
