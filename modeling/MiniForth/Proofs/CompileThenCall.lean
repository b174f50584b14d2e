import MiniForth.Proofs.Definition
import MiniForth.Proofs.Mirror

/-!
# Compiling and then calling

A body of words and numbers can be processed as a line, or it can be made a word that is called. The
first takes tokens, the second takes cells, and both come to the same.

* `ends_of_interpretAll?`: the cells of a body do what its tokens do, token by token.
* `Reachable.compile_then_call`: from this, the two lines of a definition and its call against the one
  line of its body.
-/

namespace MiniForth

/-- The primitives that act on the parameter stack and on the response to the line, or skip. -/
def Primitive.tame : Primitive → Bool
  | add | dup | print | printStack | background | branch | zeroBranch => true
  | _                                                                 => false

/-- In compiled code numbers and returns are dispatched too. -/
def Primitive.TameInside (p : Primitive) : Prop := p.tame = true ∨ p = .literal ∨ p = .exit

instance : DecidablePred Primitive.TameInside := fun p =>
  inferInstanceAs (Decidable (p.tame = true ∨ p = .literal ∨ p = .exit))

theorem Primitive.TameInside.plain {p : Primitive} (h : p.TameInside) :
    p.defines = false ∧ p ≠ .words ∧ p ≠ .leftBracket ∧ p ≠ .rightBracket := by
  rcases h with h | rfl | rfl
  · -- A primitive that works on definitions is not tame.
    cases p <;> first | exact Bool.noConfusion h | simp [defines]
  · simp [defines]
  · simp [defines]

namespace Dictionary

/-- Does the text name `branch` or `0branch`? -/
def Branches (d : Dictionary) (text : String) : Prop :=
  d.Names text .branch ∨ d.Names text .zeroBranch

/-- Every `branch` and `0branch` is followed by a word, whose token and whose cell are one to skip. -/
def Guards (d : Dictionary) : List String → Prop
  | []            => True
  | text :: texts =>
    (d.Branches text → ∃ next ∈ texts.head?, d.find? next ≠ none) ∧ d.Guards texts

instance (d : Dictionary) (text : String) : Decidable (d.Branches text) :=
  inferInstanceAs (Decidable (_ ∨ _))

instance decidableGuards (d : Dictionary) : DecidablePred d.Guards
  | []         => isTrue trivial
  | _ :: texts =>
    have := decidableGuards d texts
    inferInstanceAs (Decidable (_ ∧ _))

end Dictionary

namespace Session

/-- The token executes no primitive that is not tame, and compiled code only if that dispatches none
either and meets no memory fault. -/
def RunsTamely (s : Session) (t : Token) : Prop :=
  ∀ word, s.executed? t = some word →
    match word.behavior with
    | .primitive p    => p.tame = true
    | .compiled entry => (Call.start s entry).Always (Dispatches Primitive.TameInside)

/-- The state of a session while it processes a tame line. -/
structure Steady (d : Dictionary) (s : Session) : Prop where
  returns    : s.returns = []
  phase      : s.phase = .idle
  mode       : s.mode = .immediate
  dictionary : s.dictionary = d

theorem Steady.phase_ne_awaitingName {d : Dictionary} {s : Session} (hs : s.Steady d) :
    s.phase ≠ .awaitingName := by
  rw [hs.phase]
  simp

theorem Steady.inLine {d : Dictionary} {s : Session} (hs : s.Steady d) (l : Option Location)
    (pending : Pending) : Session.Steady d { s with location := l, pending := pending } :=
  ⟨hs.returns, hs.phase, hs.mode, hs.dictionary⟩

end Session

/-! ## What is reported -/

/-- What the user is told about a failure, but for where it happened. -/
def Failure.complaint (f : Failure) : FailureKind × String := (f.kind, f.message)

/-- What the response complains of. -/
def Response.complaint? (r : Response) : Option (FailureKind × String) :=
  r.failure.map Failure.complaint

/-- What the outcome complains of. -/
def Outcome.complaint? {α : Type} : Outcome α → Option (FailureKind × String)
  | .ok _ _    => none
  | .error f _ => some f.complaint

/-- What a call that ends like this complains of. -/
def Ending.complaint? : Ending → Option (FailureKind × String)
  | returned fault  => fault.map Failure.complaint
  | aborted failure => some failure.complaint

theorem Ending.complaint?_outcome (ending : Ending) (s : Session) :
    (ending.outcome s).complaint? = ending.complaint? := by
  rcases ending with ⟨_ | f⟩ | f <;> rfl

theorem Session.fst_respond (o : Outcome Unit) :
    (respond o).1.output = (Outcome.session o).output ∧
      (respond o).1.background = (Outcome.session o).background ∧
      (respond o).1.complaint? = o.complaint? :=
  ⟨output_respond o, background_respond o, by cases o <;> rfl⟩

open Session MiniForth.Frame

/-! ## One token and its cells -/

/-- What a token has come to is what the cells at the cursor of `v` come to, of which there are
`width`. -/
inductive Matches (d : Dictionary) (text : String) (s v : Session) : Nat → Outcome Unit → Prop where
  | goesOn {u w : Session} {width : Nat} : (∀ {ending x}, Ends w ending x → Ends v ending x) →
      u.Steady d → u.pending = .nothing → u.Mirrors w → v.SameProgram w →
      w.cursor = v.cursor + width → Matches d text s v width (.ok () u)
  | skips {u w : Session} : (∀ {ending x}, Ends w ending x → Ends v ending x) → u.Steady d →
      u.pending = .skip → d.Branches text → u.Mirrors w → v.SameProgram w →
      w.cursor = v.cursor + 2 → Matches d text s v 1 (.ok () u)
  | fails {u w : Session} {width : Nat} (cause : Cause) :
      Ends v (.aborted (.ofCause v.location cause)) w → u.Mirrors w →
      Matches d text s v width (.error (.ofCause s.location cause) u)

section

variable {d : Dictionary} {text : String} {s v : Session}

theorem Ending.after_none (ending : Ending) : ending.after none = ending := by
  cases ending <;> rfl

theorem matches_push {value : Cell} (hs : s.Steady d) (hpending : s.pending = .nothing)
    (h : s.Mirrors v) (hup : v.upcoming? = some (.primitive .literal))
    (hvalue : v.code.get? (v.cursor + 1) = some value) :
    Matches d text s v 2 (.ok () (s.push value)) := by
  have hstep := step_of_literal hup hvalue
  have hpushed : (s.push value).Mirrors (v.skipCell.push value).skipCell :=
    (h.push value).withCursor s.cursor (v.cursor + 2)
  refine .goesOn (.next hstep) ?_ hpending hpushed ⟨rfl, rfl, rfl⟩ rfl
  exact ⟨hs.returns, hs.phase, hs.mode, hs.dictionary⟩

theorem matches_computing {p : Primitive} (htame : p.tame = true) (hsteers : p.steers = false)
    (hs : s.Steady d) (hpending : s.pending = .nothing) (h : s.Mirrors v)
    (hup : v.upcoming? = some (.primitive p)) : Matches d text s v 1 (p.performOnTokens s) := by
  obtain ⟨hdefines, hwords, hleft, hright⟩ := Primitive.TameInside.plain (.inl htame)
  have hskip : s.Mirrors v.skipCell := h.withCursor s.cursor (v.cursor + 1)
  have hstep := step_of_primitive hup
  have heffect : p.effect? v.skipCell.dictionary v.skipCell.stack =
      p.effect? s.dictionary s.stack := by
    rw [hskip.stack]
    exact effect?_eq_of_ne_words hwords _ _ _
  have hperform := Primitive.perform_of_computes s hdefines
  rw [perform_of_computes v.skipCell hdefines hsteers, heffect, hskip.stack] at hstep
  rw [performOnTokens_eq p hs.returns]
  rcases he : p.effect? s.dictionary s.stack with _ | e
  · rw [he] at hperform hstep
    rw [hperform]
    exact .fails _ (.stop hstep) hskip
  · rw [he] at hperform hstep
    have hflow : e.flow = .next := Primitive.flow_of_perform hsteers hperform
    have hmode : (e.apply s).mode = s.mode := by
      have hkept := perform_mode s hdefines hleft hright
      rwa [perform_of_computes s hdefines hsteers, he] at hkept
    simp only [hflow] at hperform
    rw [hperform]
    refine .goesOn (.next hstep) ?_ hpending (apply_mirrors hskip e) ⟨rfl, rfl, rfl⟩ rfl
    exact ⟨hs.returns, hs.phase, hmode.trans hs.mode, hs.dictionary⟩

/-- A branch has the next token skipped on the one side and the next cell on the other. -/
theorem matches_branch (hs : s.Steady d) (h : s.Mirrors v)
    (hup : v.upcoming? = some (.primitive .branch)) (hbranches : d.Branches text) :
    Matches d text s v 1 (Primitive.branch.performOnTokens s) := by
  have hskipped := (h.withCursor s.cursor (v.cursor + 2)).inLine s.location .skip
  have hstep := step_of_primitive hup
  rw [performOnTokens_eq .branch hs.returns]
  exact .skips (.next hstep) (hs.inLine s.location .skip) rfl hbranches hskipped ⟨rfl, rfl, rfl⟩ rfl

theorem matches_zeroBranch (hs : s.Steady d) (hpending : s.pending = .nothing) (h : s.Mirrors v)
    (hup : v.upcoming? = some (.primitive .zeroBranch)) (hbranches : d.Branches text) :
    Matches d text s v 1 (Primitive.zeroBranch.performOnTokens s) := by
  have hskip : s.Mirrors v.skipCell := h.withCursor s.cursor (v.cursor + 1)
  have hstack : v.skipCell.stack = s.stack := h.stack
  have hstep := step_of_primitive hup
  rw [perform, hstack] at hstep
  rw [performOnTokens_eq .zeroBranch hs.returns, Primitive.perform_zeroBranch]
  rcases hpop : s.stack.pop? with _ | ⟨flag, rest⟩
  · rw [hpop] at hstep
    exact .fails _ (.stop hstep) hskip
  · rw [hpop] at hstep
    have hpopped := hskip.withStack rest
    have hsteady : Session.Steady d { s with stack := rest } :=
      ⟨hs.returns, hs.phase, hs.mode, hs.dictionary⟩
    by_cases hflag : flag = 0
    · simp only [if_pos hflag] at hstep ⊢
      have hskipped := (hpopped.withCursor s.cursor (v.cursor + 2)).inLine s.location .skip
      exact .skips (.next hstep) (hsteady.inLine s.location .skip) rfl hbranches hskipped
        ⟨rfl, rfl, rfl⟩ rfl
    · simp only [if_neg hflag] at hstep ⊢
      exact .goesOn (.next hstep) hsteady hpending hpopped ⟨rfl, rfl, rfl⟩ rfl

theorem matches_primitive {p : Primitive} (htame : p.tame = true) (hs : s.Steady d)
    (hpending : s.pending = .nothing) (h : s.Mirrors v) (hup : v.upcoming? = some (.primitive p))
    (hnames : d.Names text p) : Matches d text s v 1 (p.performOnTokens s) := by
  by_cases hsteers : p.steers = false
  · exact matches_computing htame hsteers hs hpending h hup
  · cases p
    case branch => exact matches_branch hs h hup (.inl hnames)
    case zeroBranch => exact matches_zeroBranch hs hpending h hup (.inr hnames)
    case exit | literal => cases htame
    all_goals exact absurd rfl hsteers

theorem matches_call {entry fuel : Nat} {o : Outcome Unit}
    (hall : (Call.start s entry).Always (Dispatches Primitive.TameInside)) (hs : s.Steady d)
    (hpending : s.pending = .nothing) (h : s.Mirrors v)
    (hup : v.upcoming? = some (.compiled entry)) (hrun : s.run? fuel entry = some o) :
    Matches d text s v 1 o := by
  have hsame := sameProgram_of_run? (fun p hp => hp.plain.1) hall hrun
  have hmode := mode_of_run? (fun p hp => ⟨hp.plain.1, hp.plain.2.2⟩) hall hrun
  have hreturns := returns_of_run? hrun
  obtain ⟨ending, t, hends, rfl⟩ := (run?_iff_ends hs.returns).mp ⟨fuel, hrun⟩
  rw [session_endingOutcome] at hsame hmode hreturns
  have hsteady : Session.Steady d { t with cursor := s.cursor } :=
    ⟨hreturns, hsame.phase.trans hs.phase, hmode.trans hs.mode, hsame.dictionary.trans hs.dictionary⟩
  rw [start_eq hs.returns] at hall
  obtain ⟨ending', w, hcallee, hw, hsame', hending⟩ :=
    hends.mirrors (fun p hp => ⟨hp.plain.1, hp.plain.2.1⟩) hall
      (t := { v.skipCell with cursor := entry }) (h.withCursor entry entry) rfl rfl rfl
  have hstep := step_of_compiled hup
  cases hending with
  | returned =>
    refine .goesOn (w := { w with cursor := v.skipCell.cursor }) ?_ hsteady
      (hends.keeps.pending.trans hpending) (hw.withCursor _ _)
      ⟨hsame'.code, hsame'.dictionary, hsame'.phase⟩ rfl
    intro ending x hrest
    have hwhole := Ends.call hstep hcallee hrest
    rwa [Ending.after_none] at hwhole
  | aborted cause => exact .fails cause (.abort hstep hcallee) (hw.withCursor _ _)

/-! ## Bodies -/

/-- What the next cells of `v` are to the tokens that `s` has still to process. -/
inductive Ready (d : Dictionary) (stop : Nat) (s v : Session) : List String → Prop where
  | here {texts : List String} : s.pending = .nothing → Laid d v.code texts v.cursor stop →
      d.Guards texts → Ready d stop s v texts
  /-- The cell of a token that is to be skipped has been passed. -/
  | behind {text : String} {texts : List String} : s.pending = .skip →
      Laid d v.code texts v.cursor stop → d.Guards texts → Ready d stop s v (text :: texts)

theorem Ready.inLine {texts : List String} {stop : Nat} (h : Ready d stop s v texts)
    (l : Option Location) : Ready d stop { s with location := l } v texts := by
  cases h with
  | here hpending hlaid hguards => exact .here hpending hlaid hguards
  | behind hpending hlaid hguards => exact .behind hpending hlaid hguards

/-- The frame ends as the line has ended. -/
structure SameResult (o : Outcome Unit) (ending : Ending) (w : Session) : Prop where
  mirrors   : (Outcome.session o).Mirrors w
  complaint : ending.complaint? = o.complaint?

theorem interpret?_of_word (fuel : Nat) {t : Token} {index : Nat} {word : Word} (hs : s.Steady d)
    (hpending : s.pending = .nothing) (hfind : d.find? t.text = some (index, word)) :
    s.executed? t = some word ∧ s.interpret? fuel t =
      match word.behavior with
      | .primitive p    => some (p.performOnTokens s)
      | .compiled entry => s.run? fuel entry := by
  have hphase := hs.phase_ne_awaitingName
  have hruns : ¬ (s.mode = .compile ∧ word.immediate = false) := by
    rw [hs.mode]
    simp
  rw [← hs.dictionary] at hfind
  constructor
  · exact executed?_eq hphase hpending hfind hruns
  · rw [interpret?_of_nothing hphase hpending, lookUp?, hfind]
    simp only [if_neg hruns]
    exact execute?_of_find? hfind

/-- The session and the frame of `v` after the first token: both can go on with the others, or both have
failed. -/
inductive Advances (d : Dictionary) (stop : Nat) (texts : List String) (s v : Session) :
    Outcome Unit → Prop where
  | goesOn {u w : Session} : (∀ {ending x}, Ends w ending x → Ends v ending x) → u.Steady d →
      u.Mirrors w → v.SameProgram w → Ready d stop u w texts → Advances d stop texts s v (.ok () u)
  | fails {u w : Session} (cause : Cause) : Ends v (.aborted (.ofCause v.location cause)) w →
      u.Mirrors w → Advances d stop texts s v (.error (.ofCause s.location cause) u)

/-- After a branch the next token is to be skipped. Its cell has been passed, for it is a word. -/
theorem Matches.advances {texts : List String} {stop width : Nat} {o : Outcome Unit}
    (hmatches : Matches d text s v width o) (hlaid : Laid d v.code texts (v.cursor + width) stop)
    (hguards : d.Guards (text :: texts)) : Advances d stop texts s v o := by
  cases hmatches with
  | goesOn hreach hu hpending huw hsame hcursor =>
    refine .goesOn hreach hu huw hsame (.here hpending ?_ hguards.2)
    rwa [hsame.code, hcursor]
  | skips hreach hu hpending hbranches huw hsame hcursor =>
    obtain ⟨next, hhead, hfound⟩ := hguards.1 hbranches
    obtain ⟨rest, rfl⟩ := List.head?_eq_some_iff.mp hhead
    cases hlaid with
    | word _ _ hlaid' =>
      refine .goesOn hreach hu huw hsame (.behind hpending ?_ hguards.2.2)
      rwa [hsame.code, hcursor]
    | number hnone => exact absurd hnone hfound
  | fails cause hends huw => exact .fails cause hends huw

/-- A token and the cells that are its own bring the session and the frame equally far. -/
theorem Ready.advances {t : Token} {texts : List String} {stop fuel : Nat} {o : Outcome Unit}
    (hready : Ready d stop s v (t.text :: texts)) (haddressable : d.size ≤ 2 ^ 63)
    (hstandard : d.Standard) (hs : s.Steady d) (h : s.Mirrors v) (htame : s.RunsTamely t)
    (hfirst : s.interpret? fuel t = some o) : Advances d stop texts s v o := by
  have hphase := hs.phase_ne_awaitingName
  have hcarries : d.Carries v.dictionary := hs.dictionary ▸ h.dictionary
  cases hready with
  | behind hpending hlaid hguards =>
    have hskip : s.interpret? fuel t = some (.ok () { s with pending := .nothing }) :=
      interpret?_eq_some_iff.mpr (.skip hphase hpending)
    rw [hfirst] at hskip
    cases hskip
    exact .goesOn id (hs.inLine s.location .nothing) (h.inLine s.location .nothing) (.refl v)
      (.here rfl hlaid hguards)
  | here hpending hlaid hguards =>
    cases hlaid with
    | @word _ _ index _ _ word hfind hcell hlaid' =>
      obtain ⟨hlt, hword, -, -⟩ := Dictionary.find?_eq_some hfind
      have hup : v.upcoming? = some word.behavior :=
        behaviorAt?_of_get? hcarries hcell (Nat.lt_of_lt_of_le hlt haddressable) hword
      obtain ⟨hexecuted, hinterpret⟩ := interpret?_of_word fuel hs hpending hfind
      have hruns := htame word hexecuted
      rw [hfirst] at hinterpret
      have hmatches : Matches d t.text s v 1 o := by
        rcases hbehavior : word.behavior with p | entry
        · rw [hbehavior] at hruns hinterpret hup
          cases hinterpret
          exact matches_primitive hruns hs hpending h hup ⟨(index, word), hfind, hbehavior⟩
        · rw [hbehavior] at hruns hinterpret hup
          exact matches_call hruns hs hpending h hup hinterpret.symm
      exact hmatches.advances hlaid' hguards
    | @number _ _ _ _ value hnone hvalue hcell hnext hlaid' =>
      have hup : v.upcoming? = some (.primitive .literal) :=
        behaviorAt?_of_vocabulary hstandard hcarries (by decide) Vocabulary.get?_literalIndex hcell
      have hnone' : s.dictionary.find? t.text = none := hs.dictionary ▸ hnone
      have hpush : s.interpret? fuel t = some (.ok () (s.push value)) :=
        interpret?_eq_some_iff.mpr (.push hphase hpending hnone' hvalue hs.mode)
      rw [hfirst] at hpush
      cases hpush
      have hmatches : Matches d t.text s v 2 (.ok () (s.push value)) :=
        matches_push hs hpending h hup hnext
      exact hmatches.advances hlaid' hguards

end

/-- The cells of a body do what its tokens do. -/
theorem ends_of_interpretAll? {d : Dictionary} {stop fuel : Nat} (haddressable : d.size ≤ 2 ^ 63)
    (hstandard : d.Standard) {ts : List Token} {s v : Session} {o : Outcome Unit} (hs : s.Steady d)
    (h : s.Mirrors v) (hexit : v.code.get? stop = some (Cell.ofIndex Vocabulary.exitIndex))
    (hready : Ready d stop s v (ts.map Token.text))
    (htame : ∀ s' t, Meets s ts s' t → s'.RunsTamely t)
    (hline : s.interpretAll? fuel ts = some o) :
    ∃ ending w, Ends v ending w ∧ SameResult o ending w := by
  -- Each token advances both sides to a state where the others are ready, with the same code.
  induction ts generalizing s v with
  | nil =>
    cases hline
    cases hready with
    | here _ hlaid _ =>
      cases hlaid
      have hcarries : d.Carries v.dictionary := hs.dictionary ▸ h.dictionary
      have hup : v.upcoming? = some (.primitive .exit) :=
        behaviorAt?_of_vocabulary hstandard hcarries (by decide) Vocabulary.get?_exitIndex hexit
      refine ⟨.returned none, v.skipCell, .stop ?_, h.withCursor s.cursor _, rfl⟩
      rw [step_of_primitive hup]
      rfl
  | cons t ts ih =>
    rw [interpretAll?] at hline
    rcases hfirst : interpret? fuel { s with location := some t.location } t with _ | o₁
    · simp [hfirst] at hline
    · rw [hfirst] at hline
      have hadvances := (hready.inLine (some t.location)).advances haddressable hstandard
        (hs.inLine _ s.pending) (h.inLine _ s.pending) (htame _ _ .head) hfirst
      cases hadvances with
      | goesOn hreach hu huw hsame hready' =>
        have hexit' := hexit
        rw [← hsame.code] at hexit'
        obtain ⟨ending, x, hends, hresult⟩ := ih hu huw hexit' hready'
          (fun s' t' hmeets => htame s' t' (.tail hfirst hmeets)) hline
        exact ⟨ending, x, hreach hends, hresult⟩
      | fails cause hends huw =>
        cases hline
        exact ⟨_, _, hends, huw, rfl⟩

/-! ## Lines -/

/-- The line of a definition makes a word whose call runs the code of the body. -/
theorem process?_definition {s : Session} (hreturns : s.returns = [])
    (hstandard : s.dictionary.Standard) (hmode : s.mode = .immediate) (hphase : s.phase = .idle)
    (hcursor : s.cursor = s.code.size)
    (hcolon : s.dictionary.Names ":" .colon) (hsemicolon : s.dictionary.Names ";" .semicolon)
    {name : String} (hname : Text.IsWord name) {body : List String}
    (hbody : ∀ text ∈ body, Text.IsWord text ∧ s.dictionary.Compiles text) :
    ∃ code stop, (∀ fuel, s.process? fuel (" ".intercalate (":" :: name :: (body ++ [";"]))) =
        some ({}, { s.endLine with
          lines := s.lines + 1, code := code, cursor := code.size, mode := .immediate, phase := .idle
          dictionary := s.dictionary.add { name, behavior := .compiled s.code.size } })) ∧
      s.code.toList <+: code.toList ∧ Laid s.dictionary code body s.code.size stop ∧
      code.get? stop = some (Cell.ofIndex Vocabulary.exitIndex) := by
  have hphase' : s.phase ≠ .awaitingName := by
    rw [hphase]
    simp
  have hline := process?_define hreturns hstandard hmode hphase' hcolon hsemicolon hname hbody
  let cells := body.flatMap s.dictionary.cells
  let code := (s.compileAll (cells ++ [Cell.ofIndex Vocabulary.exitIndex])).code
  have hcode : code.toList = s.code.toList ++ cells ++ [Cell.ofIndex Vocabulary.exitIndex] := by
    show (s.compileAll _).code.toList = _
    rw [toList_compileAll hcursor, List.append_assoc]
  have hlaid := laid_of_toList (fun text htext => (hbody text htext).2) hcode
  refine ⟨code, s.code.size + cells.length, ?_, ?_, hlaid, ?_⟩
  · intro fuel
    have hend : s.cursor + (cells ++ [Cell.ofIndex Vocabulary.exitIndex]).length = code.size :=
      cursor_compileAll hcursor _
    rw [hline fuel, ← hend, ← hcursor]
    rfl
  · rw [hcode, List.append_assoc]
    exact List.prefix_append _ _
  · rw [← Stack.getElem?_toList, hcode, ← Stack.length_toList, ← List.length_append,
      List.getElem?_concat_length]

/-- A line with a word that runs code ends as the frame of that code does. -/
theorem process?_eq_respond {s : Session} {name : String} (hname : Text.IsWord name) {index entry : Nat}
    {word : Word} (hs : s.Steady s.dictionary) (hfind : s.dictionary.find? name = some (index, word))
    (hbehavior : word.behavior = .compiled entry) :
    ∃ l, ∀ ending w, Ends { s.startLine with location := l, cursor := entry } ending w →
      ∃ fuel o, s.process? fuel name = some (respond o) ∧
        Outcome.session o = { w with cursor := s.cursor } ∧ o.complaint? = ending.complaint? := by
  have hwords : ∀ w ∈ [name], Text.IsWord w := by
    intro w hw
    rwa [List.mem_singleton.mp hw]
  obtain ⟨tokens, htokens, hmap⟩ := exists_tokens hwords s.startLine.lines
  rw [String.intercalate_singleton] at htokens
  obtain ⟨token, rest, rfl, htext, hmap⟩ := List.map_eq_cons_iff.mp hmap
  have hnil := List.map_eq_nil_iff.mp hmap
  subst hnil
  refine ⟨some token.location, ?_⟩
  intro ending w hends
  -- The line is one token, and the token is one call.
  let started : Session := { s.startLine with location := some token.location }
  have hsteady : started.Steady s.dictionary := ⟨hs.returns, hs.phase, hs.mode, rfl⟩
  obtain ⟨fuel, hrun⟩ := (run?_iff_ends (s := started) hs.returns).mpr ⟨ending, w, hends, rfl⟩
  have hfirst : started.interpret? fuel token =
      some (ending.outcome { w with cursor := started.cursor }) := by
    have hinterpret := (interpret?_of_word fuel hsteady rfl (htext.symm ▸ hfind)).2
    rw [hbehavior] at hinterpret
    exact hinterpret.trans hrun
  obtain ⟨o, ho, hsession, hcomplaint⟩ : ∃ o, s.startLine.interpretAll? fuel [token] = some o ∧
      Outcome.session o = { w with cursor := started.cursor } ∧ o.complaint? = ending.complaint? := by
    have hcomplaint := ending.complaint?_outcome { w with cursor := started.cursor }
    have hsession := session_endingOutcome ending { w with cursor := started.cursor }
    generalize ending.outcome { w with cursor := started.cursor } = o at hcomplaint hsession hfirst
    cases o with
    | ok _ u => exact ⟨_, interpretAll?_cons_of_ok hfirst [], hsession, hcomplaint⟩
    | error f u => exact ⟨_, interpretAll?_cons_of_error hfirst [], hsession, hcomplaint⟩
  refine ⟨fuel, o, ?_, hsession, hcomplaint⟩
  rw [process?, htokens, ho, Option.map_some]

/-- It answers what the frame comes to. -/
theorem process?_call {s : Session} {name : String} (hname : Text.IsWord name) {index entry : Nat}
    {word : Word} (hs : s.Steady s.dictionary) (hfind : s.dictionary.find? name = some (index, word))
    (hbehavior : word.behavior = .compiled entry) :
    ∃ l, ∀ ending w, Ends { s.startLine with location := l, cursor := entry } ending w →
      ∃ fuel response t, s.process? fuel name = some (response, t) ∧ response.output = w.output ∧
        response.background = w.background ∧ response.complaint? = ending.complaint? ∧
        t.stack = w.stack := by
  obtain ⟨l, hline⟩ := process?_eq_respond hname hs hfind hbehavior
  refine ⟨l, ?_⟩
  intro ending w hends
  obtain ⟨fuel, o, hprocess, hsession, hcomplaint⟩ := hline ending w hends
  obtain ⟨houtput, hbackground, hreported⟩ := fst_respond o
  refine ⟨fuel, (respond o).1, (respond o).2, hprocess, ?_, ?_, hreported.trans hcomplaint, ?_⟩
  · rw [houtput, hsession]
  · rw [hbackground, hsession]
  · rw [snd_respond, hsession]
    rfl

/-- To define a word and then to call it does what the line of its body does. -/
theorem Session.Reachable.compile_then_call {s : Session} (hs : s.Reachable) (hmode : s.mode = .immediate)
    (hphase : s.phase = .idle) (hcursor : s.cursor = s.code.size) (haddressable : s.Addressable)
    (hcolon : s.dictionary.Names ":" .colon) (hsemicolon : s.dictionary.Names ";" .semicolon)
    {name : String} (hname : Text.IsWord name) {body : List String}
    (hbody : ∀ text ∈ body, Text.IsWord text ∧ s.dictionary.Compiles text)
    (hguards : s.dictionary.Guards body) {fuel : Nat} {response : Response} {t : Session}
    (hline : s.process? fuel (" ".intercalate body) = some (response, t))
    (htame : ∀ s' token,
      Meets s.startLine (Token.ofLine source s.startLine.lines (" ".intercalate body)) s' token →
      s'.RunsTamely token) :
    ∃ defined, (∀ fuel, s.process? fuel (" ".intercalate (":" :: name :: (body ++ [";"]))) =
        some ({}, defined)) ∧
      ∃ fuel response' t', defined.process? fuel name = some (response', t') ∧
        response'.output = response.output ∧ response'.background = response.background ∧
        response'.complaint? = response.complaint? ∧ t'.stack = t.stack := by
  have hreturns := hs.returns_eq_nil
  obtain ⟨code, stop, hdefinition, hcode, hlaid, hexit⟩ :=
    process?_definition hreturns hs.standard hmode hphase hcursor hcolon hsemicolon hname hbody
  refine ⟨_, hdefinition, ?_⟩
  let word : Word := { name, behavior := .compiled s.code.size }
  let defined : Session := { s.endLine with
    lines := s.lines + 1, code := code, cursor := code.size, mode := .immediate, phase := .idle
    dictionary := s.dictionary.add word }
  -- The new word is the newest one of its name.
  have hfind : defined.dictionary.find? name = some (s.dictionary.size, word) := by
    refine (s.dictionary.find?_add word name).trans (if_pos ?_)
    simp [word, Word.isVisible, hname.1]
  obtain ⟨l, hcall⟩ := process?_call (s := defined) hname ⟨hreturns, rfl, rfl, rfl⟩ hfind rfl
  obtain ⟨o, ho, hrespond⟩ := Option.map_eq_some_iff.mp hline
  let entered : Session := { defined.startLine with location := l, cursor := s.code.size }
  have hmirrors : s.startLine.Mirrors entered :=
    ⟨hcode, (Dictionary.grows_add _ _).carries, rfl, rfl, rfl, hmode.symm, hphase.symm⟩
  -- Its frame begins in a session that mirrors the one in which the line of the body begins.
  have htexts : (Token.ofLine source s.startLine.lines (" ".intercalate body)).map Token.text =
      body := Token.texts_ofLine_intercalate (fun text htext => (hbody text htext).1) _ _
  have hready : Ready s.dictionary stop s.startLine entered
      ((Token.ofLine source s.startLine.lines (" ".intercalate body)).map Token.text) := by
    rw [htexts]
    exact .here rfl hlaid hguards
  have hsteady : s.startLine.Steady s.dictionary := ⟨hreturns, hphase, hmode, rfl⟩
  obtain ⟨ending, w, hends, hresult⟩ :=
    ends_of_interpretAll? haddressable hs.standard hsteady hmirrors hexit hready htame ho
  obtain ⟨fuel', response', t', hprocess, houtput, hbackground, hcomplaint, hstack⟩ :=
    hcall ending w hends
  obtain ⟨houtput', hbackground', hcomplaint'⟩ := fst_respond o
  have hresponse : (respond o).1 = response := by rw [hrespond]
  have hsession : t = (Outcome.session o).endLine := by rw [← snd_respond, hrespond]
  rw [hresponse] at houtput' hbackground' hcomplaint'
  refine ⟨fuel', response', t', hprocess, ?_, ?_, ?_, ?_⟩
  · rw [houtput, houtput', hresult.mirrors.output]
  · rw [hbackground, hbackground', hresult.mirrors.background]
  · rw [hcomplaint, hcomplaint', hresult.complaint]
  · rw [hstack, hsession, hresult.mirrors.stack]
    rfl

/-! ## An example -/

namespace Session

/-- `RunsTamely`, checked where the code comes to its end within `fuel` turns. -/
def runsTamely (fuel : Nat) (s : Session) (t : Token) : Bool :=
  match (s.executed? t).map Word.behavior with
  | none                   => true
  | some (.primitive p)    => p.tame
  | some (.compiled entry) =>
    ((Call.start s entry).finish? fuel).isSome &&
      ((Call.start s entry).visits fuel).all fun u => decide (u.Dispatches Primitive.TameInside)

theorem runsTamely_of_check {fuel : Nat} {s : Session} {t : Token} (h : s.runsTamely fuel t = true) :
    s.RunsTamely t := by
  intro word hword
  rw [runsTamely, hword, Option.map_some] at h
  rcases hbehavior : word.behavior with p | entry
  · rw [hbehavior] at h
    exact h
  · rw [hbehavior] at h
    simp only [Bool.and_eq_true, List.all_eq_true, decide_eq_true_eq] at h
    exact Call.always_of_visits h.1 h.2

/-- A session after `: twice dup + ;`. -/
def doubling : Session :=
  { Session.initial with
    code       := ⟨#[11, 10, 0]⟩
    cursor     := 3
    dictionary := Vocabulary.dictionary.add { name := "twice", behavior := .compiled 0 }
    lines      := 1 }

/-- A body that prints, skips a word, and underflows. -/
def doublingBody : List String := ["2", "twice", ".", "0", "0branch", "dup", "+"]

theorem doubling_compile_then_call : doubling.Reachable ∧
    ∃ defined, (∀ fuel, doubling.process? fuel ": twice 2 twice . 0 0branch dup + ;" =
        some ({}, defined)) ∧
      ∃ fuel response t, defined.process? fuel "twice" = some (response, t) ∧
        response.output = "4" ∧
        response.complaint? = some (.stackUnderflow, (Cause.tooFewCells 2 0).message) := by
  have hprocess : process? 0 .initial ": twice dup + ;" = some ({}, doubling) := by decide +kernel
  have hreachable : doubling.Reachable := .line .initial hprocess
  let tokens := Token.ofLine source doubling.startLine.lines (" ".intercalate doublingBody)
  have htame : ∀ s' token, Meets doubling.startLine tokens s' token → s'.RunsTamely token := by
    intro s' token h
    have hall : ∀ found ∈ met 9 doubling.startLine tokens, found.1.runsTamely 9 found.2 := by
      decide +kernel
    exact runsTamely_of_check (hall _ (mem_met h (by decide +kernel)))
  have hends : (doubling.process? 9 (" ".intercalate doublingBody)).map
      (fun r => (r.1.output, r.1.complaint?)) =
        some ("4", some (.stackUnderflow, (Cause.tooFewCells 2 0).message)) := by decide +kernel
  obtain ⟨⟨response, t⟩, hline, hresponse⟩ := Option.map_eq_some_iff.mp hends
  obtain ⟨defined, hdefined, fuel, response', t', hcall, houtput, -, hcomplaint, -⟩ :=
    hreachable.compile_then_call rfl rfl rfl (by decide) (by decide +kernel) (by decide +kernel)
      (by decide : Text.IsWord "twice") (by decide +kernel) (by decide +kernel) hline htame
  refine ⟨hreachable, defined, hdefined, fuel, response', t', hcall, ?_, ?_⟩
  · rw [houtput]
    exact congrArg Prod.fst hresponse
  · rw [hcomplaint]
    exact congrArg Prod.snd hresponse

end Session

end MiniForth
