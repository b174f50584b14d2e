import MiniForth.Proofs.Compiling
import MiniForth.Proofs.Tokens

/-!
# The line of a definition

A line `: name body ;` whose body is made of words and numbers leaves one word and its code, and
nothing else of it stays.

* `process?_define`: the session that the line leaves.
* `Reachable.definition_layout`: what that is for code memory, for the dictionary and for lookups.
-/

namespace MiniForth

namespace Session

theorem exists_tokens {texts : List String} (htexts : ∀ w ∈ texts, Text.IsWord w) (line : Nat) :
    ∃ ts, Token.ofLine source line (" ".intercalate texts) = ts ∧ ts.map Token.text = texts :=
  ⟨_, rfl, Token.texts_ofLine_intercalate htexts source line⟩

theorem isWord_of_mem_definition {name : String} (hname : Text.IsWord name) {body : List String}
    (hbody : ∀ text ∈ body, Text.IsWord text) :
    ∀ w ∈ ":" :: name :: (body ++ [";"]), Text.IsWord w := by
  intro w hw
  simp only [List.mem_cons, List.mem_append, List.not_mem_nil, or_false] at hw
  rcases hw with rfl | rfl | hw | rfl
  · decide
  · exact hname
  · exact hbody w hw
  · decide

/-- The line of a definition makes a word with the cells of the body. -/
theorem process?_define {s : Session} (hreturns : s.returns = []) (hstandard : s.dictionary.Standard)
    (hmode : s.mode = .immediate) (hphase : s.phase ≠ .awaitingName)
    (hcolon : s.dictionary.Names ":" .colon) (hsemicolon : s.dictionary.Names ";" .semicolon)
    {name : String} (hname : Text.IsWord name) {body : List String}
    (hbody : ∀ text ∈ body, Text.IsWord text ∧ s.dictionary.Compiles text) (fuel : Nat) :
    s.process? fuel (" ".intercalate (":" :: name :: (body ++ [";"]))) =
      some ({}, (s.startLine.define name (body.flatMap s.dictionary.cells)).endLine) := by
  have htexts := isWord_of_mem_definition hname fun text htext => (hbody text htext).1
  obtain ⟨tokens, htokens, hmap⟩ := exists_tokens htexts s.startLine.lines
  obtain ⟨colon, rest, rfl, hcolonText, hmap⟩ := List.map_eq_cons_iff.mp hmap
  obtain ⟨nameToken, rest, rfl, hnameText, hmap⟩ := List.map_eq_cons_iff.mp hmap
  obtain ⟨ts, last, rfl, hbodyText, hmap⟩ := List.map_eq_append_iff.mp hmap
  obtain ⟨semicolon, last, rfl, hsemicolonText, hmap⟩ := List.map_eq_cons_iff.mp hmap
  have hnil := List.map_eq_nil_iff.mp hmap
  subst hnil
  have hts : ∀ t ∈ ts, s.startLine.dictionary.Compiles t.text := by
    intro t ht
    have hmem : t.text ∈ body := by
      rw [← hbodyText]
      exact List.mem_map_of_mem ht
    exact (hbody t.text hmem).2
  obtain ⟨l, hall⟩ :=
    interpretAll?_definition (s := s.startLine) hts hmode hphase rfl hreturns hstandard
      (hcolonText ▸ hcolon) (hsemicolonText ▸ hsemicolon)
  rw [process?, htokens, hall fuel, Option.map_some, hnameText, hbodyText]
  rfl

/-- What the definition of a word with the given cells makes of the session `s`. -/
structure Defines (s : Session) (name : String) (cells : List Cell) (t : Session) : Prop where
  /-- The cells come behind what is there, and an `exit` behind them. -/
  code     : t.code.toList = s.code.toList ++ cells ++ [Cell.ofIndex Vocabulary.exitIndex]
  cursor   : t.cursor = t.code.size
  /-- One word is added. It is visible, it does not act at once, and its code begins where the code
  ended before. -/
  words    : t.dictionary.words =
    s.dictionary.words ++
      [{ name, behavior := .compiled s.code.size, hidden := false, immediate := false }]
  /-- It is found under its name. -/
  found    : t.dictionary.find? name =
    some (s.dictionary.size, { name, behavior := .compiled s.code.size })
  /-- Under any other name nothing else is found than before. -/
  others   : ∀ other, other ≠ name → t.dictionary.find? other = s.dictionary.find? other
  stack    : t.stack = s.stack
  returns  : t.returns = s.returns
  mode     : t.mode = .immediate
  phase    : t.phase = .idle
  /-- The cell behind the body means `exit`, and the one in front of a number means `lit`, whatever
  words of these names there are. -/
  reserved : (t.dictionary.get? Vocabulary.exitIndex).map Word.behavior = some (.primitive .exit) ∧
    (t.dictionary.get? Vocabulary.literalIndex).map Word.behavior = some (.primitive .literal)

theorem defines_define {s : Session} (hstandard : s.dictionary.Standard)
    (hcursor : s.cursor = s.code.size) {name : String} (hname : name ≠ "") (cells : List Cell) :
    s.Defines name cells (s.define name cells) where
  code := by
    show (s.compileAll _).code.toList = _
    rw [toList_compileAll hcursor, List.append_assoc]
  cursor := cursor_compileAll hcursor _
  words := by
    rw [← hcursor]
    exact Dictionary.words_add _ _
  found := by
    rw [← hcursor]
    refine (s.dictionary.find?_add _ name).trans (if_pos ?_)
    simp [Word.isVisible, hname]
  others := by
    intro other hother
    refine (s.dictionary.find?_add _ other).trans (if_neg ?_)
    simp [hother.symm]
  stack := rfl
  returns := rfl
  mode := rfl
  phase := rfl
  reserved := by
    have hstandard' : (s.define name cells).dictionary.Standard := hstandard.add rfl ⟨_, rfl⟩
    obtain ⟨exit, hexit, hexitBecomes⟩ := hstandard'.vocabulary _ _ Vocabulary.get?_exitIndex
    obtain ⟨lit, hlit, hlitBecomes⟩ := hstandard'.vocabulary _ _ Vocabulary.get?_literalIndex
    rw [hexit, hlit, Option.map_some, Option.map_some, hexitBecomes.behavior, hlitBecomes.behavior]
    exact ⟨rfl, rfl⟩

/-- A definition succeeds and is silent. It adds its cells to code memory and one word to the
dictionary, and leaves everything else as it was. -/
theorem Reachable.definition_layout {s : Session} (hs : s.Reachable) (hmode : s.mode = .immediate)
    (hphase : s.phase ≠ .awaitingName) (hcursor : s.cursor = s.code.size)
    (hcolon : s.dictionary.Names ":" .colon) (hsemicolon : s.dictionary.Names ";" .semicolon)
    {name : String} (hname : Text.IsWord name) {body : List String}
    (hbody : ∀ text ∈ body, Text.IsWord text ∧ s.dictionary.Compiles text) :
    ∃ t, (∀ fuel, s.process? fuel (" ".intercalate (":" :: name :: (body ++ [";"]))) =
        some ({ output := "", failure := none, background := none }, t)) ∧
      s.Defines name (body.flatMap s.dictionary.cells) t := by
  have hdefines : s.startLine.Defines name (body.flatMap s.dictionary.cells)
      (s.startLine.define name (body.flatMap s.dictionary.cells)) :=
    defines_define (s := s.startLine) hs.standard hcursor hname.1 _
  refine ⟨_, process?_define hs.returns_eq_nil hs.standard hmode hphase hcolon hsemicolon hname hbody,
    ?_⟩
  -- The end of the line resets what belongs to the line, which a definition has nothing to do with.
  exact { hdefines with }

/-- A session after `: up 1 + ;`. -/
def counting : Session :=
  { Session.initial with
    code       := ⟨#[2, 1, 10, 0]⟩
    cursor     := 4
    dictionary := Vocabulary.dictionary.add { name := "up", behavior := .compiled 0 }
    lines      := 1 }

/-- A word whose body uses the one it takes the name from. -/
theorem counting_definition_layout : counting.Reachable ∧
    ∃ t, (∀ fuel, counting.process? fuel ": up up 5 up ;" = some ({}, t)) ∧
      t.code.toList = [2, 1, 10, 0, 17, 2, 5, 17, 0] ∧
      t.dictionary.find? "up" = some (18, { name := "up", behavior := .compiled 4 }) := by
  have hprocess : process? 0 .initial ": up 1 + ;" = some ({}, counting) := by decide +kernel
  have hreachable : counting.Reachable := .line .initial hprocess
  have hname : Text.IsWord "up" := by decide
  have hbody : ∀ text ∈ ["up", "5", "up"],
      Text.IsWord text ∧ counting.dictionary.Compiles text := by decide +kernel
  obtain ⟨t, hline, ht⟩ := hreachable.definition_layout rfl (by decide) rfl (by decide +kernel)
    (by decide +kernel) hname hbody
  have hcells : ["up", "5", "up"].flatMap counting.dictionary.cells = [17, 2, 5, 17] := by
    decide +kernel
  refine ⟨hreachable, t, hline, ?_, ht.found⟩
  rw [ht.code, hcells]
  rfl

end Session

end MiniForth
