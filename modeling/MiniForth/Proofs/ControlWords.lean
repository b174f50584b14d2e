import MiniForth.Proofs.Compiling
import MiniForth.Proofs.Confined
import MiniForth.Proofs.Surroundings

/-!
# Control words at the top level

Where no code is running, `branch`, `0branch` and `lit` act on the next word of the line. That word is
passed over or read as a number before it is looked at in any other way, so it does not matter what it
would have done: open a definition, end one, or fail.

The lines that are compared have their words at different places, and so have their failures. Nothing
else depends on where words stand.

* `answerFrom?_eq`: what words come to, wherever they stand.
* `answerFrom?_branch`, `answerFrom?_zeroBranch`, `answerFrom?_literal`: a control word and the next word.
* `control_words`: lines with and without them.
-/

namespace MiniForth

/-! ## Where words stand -/

/-- The words of a line. -/
def Text.words (line : String) : List String := (Token.ofLine "" 0 line).map Token.text

theorem Text.texts_ofLine (path : String) (number : Nat) (line : String) :
    (Token.ofLine path number line).map Token.text = Text.words line :=
  Token.texts_ofReader_eq (Reader.ofLine "" 0 line) _

theorem Text.words_intercalate {texts : List String} (htexts : ∀ text ∈ texts, IsWord text) :
    words (" ".intercalate texts) = texts :=
  Token.texts_ofLine_intercalate htexts "" 0

theorem Text.words_of_isWord {text : String} (h : IsWord text) : words text = [text] := by
  have hone := words_intercalate (List.forall_mem_singleton.mpr h)
  rwa [String.intercalate_singleton] at hone

/-- Words of a line that stand nowhere in particular. -/
def Token.unplaced (words : List String) : List Token :=
  words.map fun text => { text, location := default }

@[simp] theorem Token.texts_unplaced (words : List String) :
    (Token.unplaced words).map Token.text = words := by
  simp [unplaced, Function.comp_def]

/-- The failure without its location. -/
def Failure.unlocated (f : Failure) : Failure := { f with location := none }

/-- The response without the location of its failure. -/
def Response.unlocated (r : Response) : Response :=
  { r with failure := r.failure.map Failure.unlocated }

/-- Nothing is around the session, but its line is another one. -/
def Surroundings.elsewhere : Surroundings := { sameLine := False }

theorem Surroundings.suits_elsewhere (s : Session) (p : Primitive) : elsewhere.Suits s p :=
  ⟨.inl rfl, fun _ _ => rfl, fun _ _ => .inl rfl⟩

namespace Session

open Surroundings (elsewhere)

/-- What a line comes to with this outcome, but for where its words stand. -/
def report (o : Outcome Unit) : Response × Session := ((respond o).1.unlocated, (respond o).2)

/-- What the session answers to a line, and the session behind it, but for where the words stand. -/
def answer? (fuel : Nat) (s : Session) (line : String) : Option (Response × Session) :=
  (s.process? fuel line).map fun r => (r.1.unlocated, r.2)

/-- The same in the middle of a line of which these words are left. -/
def answerFrom? (fuel : Nat) (s : Session) (words : List String) : Option (Response × Session) :=
  (s.interpretAll? fuel (Token.unplaced words)).map report

variable {s t u : Session} {fuel : Nat}

theorem within_elsewhere (s : Session) (location : Option Location) :
    s.Within elsewhere { s with location } := by
  apply within_of_eq s.stack.above_nil.symm _ _ False.elim rfl rfl
  · show s.background = (s.background <|> none)
    cases s.background <;> rfl
  · intro _
    exact (Text.joined_empty_left s.output).symm

theorem endLine_of_within_elsewhere (h : s.Within elsewhere t) :
    t.endLine = s.endLine ∧ t.output = s.output ∧ t.background = s.background := by
  cases h with
  | @intro output location lines hjoined _ hlines =>
    have houtput : output = s.output := (hjoined trivial).trans (Text.joined_empty_left s.output)
    have hlines : lines = s.lines := hlines
    refine ⟨?_, houtput, ?_⟩
    · rw [hlines]
      simp only [endLine, elsewhere, Stack.above_nil]
    · show (s.background <|> none) = s.background
      cases s.background <;> rfl

theorem report_eq_of_within {o o' : Outcome Unit} (h : Outcome.Within elsewhere o o') :
    report o = report o' := by
  cases h with
  | ok hst =>
    obtain ⟨hend, houtput, hbackground⟩ := endLine_of_within_elsewhere hst
    simp only [report, respond, hend, houtput, hbackground]
  | @error f g _ _ hst hreports =>
    obtain ⟨hend, houtput, hbackground⟩ := endLine_of_within_elsewhere hst
    have hfailure : g.unlocated = f.unlocated := by
      rw [Failure.unlocated, Failure.unlocated, hreports.kind, hreports.message]
    simp only [report, respond, hend, houtput, hbackground, Response.unlocated, Option.map_some, hfailure]

/-- Wherever the words stand, they come to the same. -/
theorem answerFrom?_eq (h : s.Within elsewhere t) {ts : List Token} {words : List String}
    (htexts : ts.map Token.text = words) :
    s.answerFrom? fuel words = (t.interpretAll? fuel ts).map report := by
  have hsuits (s' : Session) (token : Token) : s'.PerformsOnly elsewhere.Suits token :=
    (performsOnly_true s' token).imp fun v p _ => Surroundings.suits_elsewhere v p
  have htexts : ts.map Token.text = (Token.unplaced words).map Token.text := by simp [htexts]
  have hall := h.interpretAll? htexts False.elim (fun s' token _ => hsuits s' token) fuel
  rw [answerFrom?]
  generalize s.interpretAll? fuel _ = o?, t.interpretAll? fuel ts = o?' at hall
  cases hall with
  | none => rfl
  | some houtcomes => exact congrArg some (report_eq_of_within houtcomes)

theorem answerFrom?_withLocation (location : Option Location) (words : List String) :
    Session.answerFrom? fuel { s with location } words = s.answerFrom? fuel words :=
  (answerFrom?_eq (within_elsewhere s location) (Token.texts_unplaced words)).symm

theorem answer?_eq (s : Session) (line : String) :
    s.answer? fuel line = s.startLine.answerFrom? fuel (Text.words line) := by
  rw [answerFrom?_eq (within_elsewhere s.startLine s.startLine.location) (Text.texts_ofLine _ _ line),
    answer?, process?, Option.map_map]
  rfl

/-- Of a line that succeeds nothing but its words matters. -/
theorem process?_of_words {line line' : String} {response : Response}
    (hwords : Text.words line' = Text.words line) (hsuccess : response.failure = none)
    (h : s.process? fuel line = some (response, t)) : s.process? fuel line' = some (response, t) := by
  have hanswer : s.answer? fuel line' = some (response.unlocated, t) := by
    rw [answer?_eq, hwords, ← answer?_eq, answer?, h, Option.map_some]
  obtain ⟨⟨response', t'⟩, h', heq⟩ := Option.map_eq_some_iff.mp hanswer
  obtain ⟨hunlocated, rfl⟩ := Prod.mk.inj heq
  simp only [Response.unlocated, Response.mk.injEq, hsuccess, Option.map_none,
    Option.map_eq_none_iff] at hunlocated
  obtain ⟨houtput, hfailure, hbackground⟩ := hunlocated
  rw [h', Option.some.injEq, Prod.mk.injEq, Response.mk.injEq]
  exact ⟨⟨houtput, hfailure.trans hsuccess.symm, hbackground⟩, rfl⟩

/-- Behind words that have been processed the line goes on in the session that they have left. -/
theorem answerFrom?_append {ts : List Token} {words : List String} (htexts : ts.map Token.text = words)
    (h : s.interpretAll? fuel ts = some (.ok () u)) (more : List String) :
    s.answerFrom? fuel (words ++ more) = u.answerFrom? fuel more := by
  have hjoined : (ts ++ Token.unplaced more).map Token.text = words ++ more := by simp [htexts]
  rw [answerFrom?_eq (within_elsewhere s s.location) hjoined]
  show (s.interpretAll? fuel _).map report = _
  rw [interpretAll?_append, h]
  rfl

theorem answerFrom?_cons {word : String}
    (h : ∀ l, interpret? fuel { s with location := l } { text := word, location := default } =
      some (.ok () { u with location := l })) (more : List String) :
    s.answerFrom? fuel (word :: more) = u.answerFrom? fuel more := by
  rw [← answerFrom?_withLocation (some default) more, answerFrom?, answerFrom?,
    ← interpretAll?_cons_of_ok (h (some default))]
  rfl

/-! ## Control words and the word behind them -/

/-- A word that names a primitive has it carried out where words are executed. -/
theorem interpret?_of_names {t : Token} {p : Primitive} (hmode : s.mode = .immediate)
    (hphase : s.phase ≠ .awaitingName) (hpending : s.pending = .nothing)
    (hnames : s.dictionary.Names t.text p) : s.interpret? fuel t = some (p.performOnTokens s) := by
  obtain ⟨⟨index, word⟩, hfind, hbehavior⟩ := hnames
  have hruns : ¬ (s.mode = .compile ∧ word.immediate = false) := by simp [hmode]
  exact interpret?_eq_some_iff.mpr (.perform hphase hpending hfind hruns hbehavior)

section

variable (hmode : s.mode = .immediate) (hphase : s.phase ≠ .awaitingName)
  (hpending : s.pending = .nothing) (word : String) (more : List String)

include hphase

/-- A word that is passed over leaves no trace. -/
theorem answerFrom?_skip : Session.answerFrom? fuel { s with pending := .skip } (word :: more) =
    Session.answerFrom? fuel { s with pending := .nothing } more := by
  apply answerFrom?_cons
  intro l
  exact interpret?_eq_some_iff.mpr (.skip hphase rfl)

/-- A word that is read as a number is pushed, whatever else it means. -/
theorem answerFrom?_number {value : Cell} (hvalue : Numeral.value? word = some value) :
    Session.answerFrom? fuel { s with pending := .literal } (word :: more) =
      Session.answerFrom? fuel (push { s with pending := .nothing } value) more := by
  apply answerFrom?_cons
  intro l
  exact interpret?_eq_some_iff.mpr (.literal hphase rfl hvalue)

include hmode hpending

theorem answerFrom?_of_names {name : String} {p : Primitive} (hnames : s.dictionary.Names name p)
    (hperform : ∀ l, p.performOnTokens { s with location := l } = .ok () { u with location := l }) :
    s.answerFrom? fuel (name :: more) = u.answerFrom? fuel more := by
  apply answerFrom?_cons
  intro l
  rw [← hperform l]
  exact interpret?_of_names hmode hphase hpending hnames

theorem answerFrom?_branch (hnames : s.dictionary.Names "branch" .branch) :
    s.answerFrom? fuel ("branch" :: word :: more) = s.answerFrom? fuel more := by
  rw [answerFrom?_of_names (u := { s with pending := .skip }) hmode hphase hpending _ hnames fun _ => rfl,
    answerFrom?_skip hphase, pending_nothing hpending]

theorem answerFrom?_zeroBranch (hnames : s.dictionary.Names "0branch" .zeroBranch) {value : Cell}
    {rest : Stack Cell} (hpop : s.stack.pop? = some (value, rest)) :
    s.answerFrom? fuel ("0branch" :: word :: more) =
      Session.answerFrom? fuel { s with stack := rest } (if value = 0 then more else word :: more) := by
  let popped : Session := { s with stack := rest }
  have hperform (l : Option Location) : Primitive.zeroBranch.perform { s with location := l } =
      .ok (if value = 0 then .skip else .next) { popped with location := l } := by
    rw [Primitive.perform_zeroBranch, hpop]
  by_cases hzero : value = 0
  · have hskips (l : Option Location) : Primitive.zeroBranch.performOnTokens { s with location := l } =
        .ok () { popped with pending := .skip, location := l } := by
      simp only [Primitive.performOnTokens, bind, EStateM.bind, hperform, if_pos hzero]
      rfl
    rw [answerFrom?_of_names (u := { popped with pending := .skip }) hmode hphase hpending _ hnames hskips,
      answerFrom?_skip (s := popped) hphase, pending_nothing (s := popped) hpending, if_pos hzero]
  · have hgoesOn (l : Option Location) : Primitive.zeroBranch.performOnTokens { s with location := l } =
        .ok () { popped with location := l } := by
      simp only [Primitive.performOnTokens, bind, EStateM.bind, hperform, if_neg hzero]
      rfl
    rw [answerFrom?_of_names hmode hphase hpending _ hnames hgoesOn, if_neg hzero]

theorem answerFrom?_literal (hnames : s.dictionary.Names "lit" .literal) {value : Cell}
    (hvalue : Numeral.value? word = some value) :
    s.answerFrom? fuel ("lit" :: word :: more) = (s.push value).answerFrom? fuel more := by
  rw [answerFrom?_of_names (u := { s with pending := .literal }) hmode hphase hpending _ hnames
    fun _ => rfl, answerFrom?_number hphase word more hvalue, pending_nothing hpending]

end

/-! ## Lines -/

/-- Let the line `first` leave the session `u` in its middle, where words are executed and nothing is
pending. Then `branch` and the next word can be left out of a longer line, whatever the word is. `0branch`
takes a cell, and the next word can be left out if it is 0. And `lit` pushes the next word if that is a
number, also where a word goes by it. -/
theorem control_words {first : String}
    (hfirst : s.startLine.interpretAll? fuel (Token.ofLine source s.startLine.lines first) =
      some (.ok () u))
    (hmode : u.mode = .immediate) (hphase : u.phase ≠ .awaitingName) (hpending : u.pending = .nothing)
    (word : String) (more : List String) :
    (u.dictionary.Names "branch" .branch → ∀ line line',
      Text.words line = Text.words first ++ "branch" :: word :: more →
      Text.words line' = Text.words first ++ more → s.answer? fuel line = s.answer? fuel line') ∧
    (u.dictionary.Names "0branch" .zeroBranch → ∀ line value rest,
      Text.words line = Text.words first ++ "0branch" :: word :: more →
      u.stack.pop? = some (value, rest) → s.answer? fuel line =
        Session.answerFrom? fuel { u with stack := rest } (if value = 0 then more else word :: more)) ∧
    (u.dictionary.Names "lit" .literal → ∀ line value,
      Text.words line = Text.words first ++ "lit" :: word :: more →
      Numeral.value? word = some value →
      s.answer? fuel line = (u.push value).answerFrom? fuel more) := by
  have hanswer (line : String) (words : List String) (hwords : Text.words line = Text.words first ++ words) :
      s.answer? fuel line = u.answerFrom? fuel words := by
    rw [answer?_eq, hwords, answerFrom?_append (Text.texts_ofLine _ _ first) hfirst]
  refine ⟨?_, ?_, ?_⟩
  · intro hnames line line' hline hline'
    rw [hanswer line _ hline, hanswer line' _ hline',
      answerFrom?_branch hmode hphase hpending word more hnames]
  · intro hnames line value rest hline hpop
    rw [hanswer line _ hline, answerFrom?_zeroBranch hmode hphase hpending word more hnames hpop]
  · intro hnames line value hline hvalue
    rw [hanswer line _ hline, answerFrom?_literal hmode hphase hpending word more hnames hvalue]

/-- A session after `: 5 dup ;`, where `5` is a word. -/
def numbered : Session :=
  { Session.initial with
    code       := ⟨#[11, 0]⟩
    cursor     := 2
    dictionary := Vocabulary.dictionary.add { name := "5", behavior := .compiled 0 }
    lines      := 1 }

/-- The lines go on with the word `5`, and fail at `nope`. -/
theorem numbered_control_words : numbered.Reachable ∧
    numbered.answer? 9 "3 0 branch 5 . nope" = numbered.answer? 9 "3 0 . nope" ∧
    (numbered.answer? 9 "3 0 0branch 5 . nope").map (fun r => r.1.output) = some "3" ∧
    (numbered.answer? 9 "3 0 lit 5 . nope").map (fun r => (r.1.output, r.2.stack.toList)) =
      some ("5", [3, 0]) := by
  have hprocess : process? 0 .initial ": 5 dup ;" = some ({}, numbered) := by decide +kernel
  have htokens : Token.ofLine source numbered.startLine.lines "3 0" =
      [⟨"3", ⟨source, 2, 1⟩⟩, ⟨"0", ⟨source, 2, 3⟩⟩] := by decide +kernel
  have hfirst : numbered.startLine.interpretAll? 9
      (Token.ofLine source numbered.startLine.lines "3 0") = some (.ok () { numbered.startLine with
        stack := ⟨#[3, 0]⟩, location := some ⟨source, 2, 3⟩ }) := by
    rw [htokens]
    rfl
  obtain ⟨hbranch, hzeroBranch, hliteral⟩ :=
    control_words hfirst rfl (by decide) rfl "5" [".", "nope"]
  refine ⟨.line .initial hprocess, ?_, ?_, ?_⟩
  · exact hbranch (by decide +kernel) _ _ (by decide +kernel) (by decide +kernel)
  · rw [hzeroBranch (by decide +kernel) _ 0 ⟨#[3]⟩ (by decide +kernel) (by decide +kernel)]
    decide +kernel
  · rw [hliteral (by decide +kernel) _ 5 (by decide +kernel) (by decide +kernel)]
    decide +kernel

end Session

end MiniForth
