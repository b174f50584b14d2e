import MiniForth.Proofs.CompileThenCall
import MiniForth.Proofs.TypingBack

/-!
# Sums

A sum is written with its summands first and each `+` behind the two sums that it adds. Its words leave
one cell more on the parameter stack, whatever lies below, and so do its cells where they are compiled.

Both are proved with further words behind those of the sum, so that the two summands of a sum can be
taken one after the other.

* `Expression.toInt_value`: additions that wrap around come to the sum of all numbers, wrapped around
  once.
* `interpretAll?_sum`, `ends_of_sum`: the words of a sum, and its cells.
* `process?_sum`, `process?_compiled_sum`: the line of a sum, and the line that calls a word of it.
* `Reachable.process?_sum_line`: both lines, and the one that defines the word.
-/

namespace MiniForth

/-- Numbers that are added up, with the order in which they are. -/
inductive Expression where
  | number (value : Cell)
  | sum (left right : Expression)
  deriving DecidableEq, Repr

namespace Expression

/-- The numbers from the left to the right. -/
def leaves : Expression → List Cell
  | number value   => [value]
  | sum left right => left.leaves ++ right.leaves

/-- The words to type. -/
def words : Expression → List String
  | number value   => [value.text]
  | sum left right => left.words ++ (right.words ++ ["+"])

/-- What the additions of cells come to. -/
def value : Expression → Cell
  | number value   => value
  | sum left right => left.value + right.value

theorem value_eq_ofInt (e : Expression) : e.value = Int64.ofInt (e.leaves.map Int64.toInt).sum := by
  induction e with
  | number value => simp [Expression.value, leaves]
  | sum left right ihleft ihright =>
    rw [Expression.value, leaves, List.map_append, List.sum_append, Int64.ofInt_add, ihleft, ihright]

/-- However often the additions wrap around, it is as if they had done so once, at the end. -/
theorem toInt_value (e : Expression) :
    e.value.toInt = (e.leaves.map Int64.toInt).sum.bmod (2 ^ 64) := by
  rw [value_eq_ofInt, Int64.toInt_ofInt]
  rfl

/-- The words of a sum are `+` and its numbers. -/
theorem eq_plus_or_number_of_mem {e : Expression} {word : String} (h : word ∈ e.words) :
    word = "+" ∨ ∃ value ∈ e.leaves, word = value.text := by
  induction e with
  | number value =>
    rw [words, List.mem_singleton] at h
    exact .inr ⟨value, List.mem_singleton_self value, h⟩
  | sum left right ihleft ihright =>
    simp only [words, List.mem_append, List.mem_singleton] at h
    rcases h with h | h | h
    · rcases ihleft h with h | ⟨value, hvalue, h⟩
      · exact .inl h
      · exact .inr ⟨value, List.mem_append_left _ hvalue, h⟩
    · rcases ihright h with h | ⟨value, hvalue, h⟩
      · exact .inl h
      · exact .inr ⟨value, List.mem_append_right _ hvalue, h⟩
    · exact .inl h

/-- In the dictionary, the words of the sum mean what they look like. -/
structure MeantBy (e : Expression) (d : Dictionary) : Prop where
  plus    : d.Names "+" .add
  numbers : ∀ value ∈ e.leaves, d.find? value.text = none

theorem MeantBy.left {left right : Expression} {d : Dictionary} (h : (sum left right).MeantBy d) :
    left.MeantBy d :=
  ⟨h.plus, fun value hvalue => h.numbers value (List.mem_append_left _ hvalue)⟩

theorem MeantBy.right {left right : Expression} {d : Dictionary} (h : (sum left right).MeantBy d) :
    right.MeantBy d :=
  ⟨h.plus, fun value hvalue => h.numbers value (List.mem_append_right _ hvalue)⟩

end Expression

/-! ## One addition -/

theorem Stack.popTwo?_push {α : Type} (s : Stack α) (lower upper : α) :
    ((s.push lower).push upper).popTwo? = some (lower, upper, s) := by
  simp [popTwo?]

theorem Primitive.perform_add_push {s : Session} {stack : Stack Cell} {a b : Cell}
    (h : s.stack = (stack.push a).push b) :
    add.perform s = .ok .next { s with stack := stack.push (a + b) } := by
  rw [perform_add, h, Stack.popTwo?_push]

/-- All primitives are initial words, so there are cells for them. -/
theorem Dictionary.Standard.index_lt {d : Dictionary} (h : d.Standard) {index : Nat} {word : Word}
    {p : Primitive} (hword : d.get? index = some word) (hp : word.behavior = .primitive p) :
    index < Vocabulary.words.length := by
  apply Nat.lt_of_not_le
  intro hle
  obtain ⟨-, entry, hentry⟩ := h.defined index word hle hword
  rw [hentry] at hp
  cases hp

open Session MiniForth.Frame

theorem Frame.step_of_add {s : Session} {stack : Stack Cell} {a b : Cell}
    (hup : s.upcoming? = some (.primitive .add)) (h : s.stack = (stack.push a).push b) :
    step s = .next { s with stack := stack.push (a + b), cursor := s.cursor + 1 } := by
  rw [step_of_primitive hup, perform_of_not_steers _ rfl (by decide),
    Primitive.perform_add_push (s := s.skipCell) h]
  rfl

/-! ## Sums as they are typed and as they are compiled -/

namespace Session

variable {d : Dictionary} {e : Expression} {s v : Session}

/-- The words of a sum put its value on the parameter stack. -/
theorem interpretAll?_sum (he : e.MeantBy d) (hs : s.Steady d) (hpending : s.pending = .nothing)
    {ts : List Token} {rest : List String} (hts : ts.map Token.text = e.words ++ rest) :
    ∃ ts' location, ts'.map Token.text = rest ∧ ∀ fuel, s.interpretAll? fuel ts =
      interpretAll? fuel { s with stack := s.stack.push e.value, location } ts' := by
  induction e generalizing s ts rest with
  | number value =>
    obtain ⟨t, ts, rfl, ht, hts⟩ := List.map_eq_cons_iff.mp hts
    have hnone : s.dictionary.find? t.text = none := by
      rw [ht, hs.dictionary]
      exact he.numbers value (List.mem_singleton_self value)
    have hnumber : t.number? = some value := by
      rw [Token.number?, ht, Numeral.value?_text]
    refine ⟨ts, some t.location, hts, ?_⟩
    intro fuel
    exact interpretAll?_cons_of_ok (interpret?_eq_some_iff.mpr
      (.push hs.phase_ne_awaitingName hpending hnone hnumber hs.mode)) ts
  | sum left right ihleft ihright =>
    rw [Expression.words, List.append_assoc, List.append_assoc] at hts
    obtain ⟨tsRight, l, htsRight, hleft⟩ := ihleft he.left hs hpending hts
    obtain ⟨tsPlus, l', htsPlus, hright⟩ := ihright
      (s := { s with stack := s.stack.push left.value, location := l }) he.right
      ⟨hs.returns, hs.phase, hs.mode, hs.dictionary⟩ hpending htsRight
    obtain ⟨plus, ts', rfl, hplus, hts'⟩ := List.map_eq_cons_iff.mp htsPlus
    obtain ⟨⟨index, word⟩, hfind, hbehavior⟩ := he.plus
    refine ⟨ts', some plus.location, hts', ?_⟩
    intro fuel
    let added : Session := { s with
      stack := (s.stack.push left.value).push right.value, location := some plus.location }
    have hadd : added.interpret? fuel plus = some (.ok () { s with
        stack := s.stack.push (left.value + right.value), location := some plus.location }) := by
      have hsteady : added.Steady d := ⟨hs.returns, hs.phase, hs.mode, hs.dictionary⟩
      rw [(interpret?_of_word fuel hsteady hpending (hplus ▸ hfind)).2, hbehavior]
      simp only
      rw [performOnTokens_eq .add (s := added) hs.returns, Primitive.perform_add_push rfl]
    rw [hleft fuel, hright fuel]
    exact interpretAll?_cons_of_ok hadd ts'

/-- The cells of a sum put its value on the parameter stack. -/
theorem ends_of_sum (he : e.MeantBy d) (hstandard : d.Standard) (hcarries : d.Carries v.dictionary)
    {rest : List String} {stop : Nat} (hlaid : Laid d v.code (e.words ++ rest) v.cursor stop) :
    ∃ cursor, Laid d v.code rest cursor stop ∧ ∀ {ending x},
      Ends { v with stack := v.stack.push e.value, cursor } ending x → Ends v ending x := by
  induction e generalizing v rest with
  | number value =>
    have hnone := he.numbers value (List.mem_singleton_self value)
    cases hlaid with
    | word hfind => simp [hnone] at hfind
    | number _ hvalue hcell hnext hlaid =>
      rw [Numeral.value?_text] at hvalue
      cases hvalue
      have hup : v.upcoming? = some (.primitive .literal) :=
        behaviorAt?_of_vocabulary hstandard hcarries (by decide) Vocabulary.get?_literalIndex hcell
      exact ⟨v.cursor + 2, hlaid, .next (step_of_literal hup hnext)⟩
  | sum left right ihleft ihright =>
    rw [Expression.words, List.append_assoc, List.append_assoc] at hlaid
    obtain ⟨cursor, hlaidRight, hleft⟩ := ihleft he.left hcarries hlaid
    obtain ⟨cursor', hlaidPlus, hright⟩ := ihright
      (v := { v with stack := v.stack.push left.value, cursor }) he.right hcarries hlaidRight
    obtain ⟨⟨index, word⟩, hfind, hbehavior⟩ := he.plus
    have hfind : d.find? "+" = some (index, word) := hfind
    cases hlaidPlus with
    | number hnone => simp [hfind] at hnone
    | word hfind' hcell hlaid =>
      rw [hfind] at hfind'
      cases hfind'
      obtain ⟨-, hword, -, -⟩ := Dictionary.find?_eq_some hfind
      let added : Session := { v with
        stack := (v.stack.push left.value).push right.value, cursor := cursor' }
      have hup : added.upcoming? = some (.primitive .add) := by
        rw [← hbehavior]
        exact behaviorAt?_of_get? (s := added) hcarries hcell
          (Nat.lt_trans (hstandard.index_lt hword hbehavior) (by decide)) hword
      exact ⟨cursor' + 1, hlaid, fun h => hleft (hright (.next (step_of_add hup rfl) h))⟩

/-! ## Lines of sums -/

/-- The words of the sum can be the body of a definition. -/
theorem compiles_of_mem_words (he : e.MeantBy d) (hstandard : d.Standard) {word : String}
    (h : word ∈ e.words) : Text.IsWord word ∧ d.Compiles word := by
  rcases Expression.eq_plus_or_number_of_mem h with rfl | ⟨value, hvalue, rfl⟩
  · obtain ⟨⟨index, plus⟩, hfind, hbehavior⟩ := he.plus
    obtain ⟨-, hplus, -, -⟩ := Dictionary.find?_eq_some hfind
    exact ⟨by decide,
      .inl ⟨_, hfind, hstandard.not_immediate_of_computes hplus hbehavior rfl (by decide)⟩⟩
  · refine ⟨value.isWord_text, .inr ⟨he.numbers value hvalue, ?_⟩⟩
    rw [Numeral.value?_text]
    rfl

/-- A line of a sum puts its value on the parameter stack. -/
theorem process?_sum (he : e.MeantBy s.dictionary) (hs : s.Steady s.dictionary) (hend : s.endLine = s)
    {line : String} (hwords : Text.words line = e.words) (fuel : Nat) :
    s.process? fuel line =
      some ({}, { s with stack := s.stack.push e.value, lines := s.lines + 1 }) := by
  have htexts : (Token.ofLine source s.startLine.lines line).map Token.text = e.words ++ [] := by
    rw [Text.texts_ofLine, hwords, List.append_nil]
  have hstart : s.startLine.Steady s.dictionary := ⟨hs.returns, hs.phase, hs.mode, rfl⟩
  obtain ⟨rest, location, hrest, hall⟩ := interpretAll?_sum he hstart rfl htexts
  obtain rfl := List.map_eq_nil_iff.mp hrest
  rw [process?, hall]
  exact congrArg some (respond_withStack hend _ location)

/-- So does a word whose code is that of the sum. -/
theorem process?_compiled_sum (he : e.MeantBy d) (hstandard : d.Standard)
    (hcarries : d.Carries s.dictionary) (hs : s.Steady s.dictionary) (hend : s.endLine = s)
    {name : String} (hname : Text.IsWord name) {index entry stop : Nat} {word : Word}
    (hfind : s.dictionary.find? name = some (index, word)) (hbehavior : word.behavior = .compiled entry)
    (hlaid : Laid d s.code e.words entry stop)
    (hexit : s.code.get? stop = some (Cell.ofIndex Vocabulary.exitIndex)) :
    ∃ fuel, s.process? fuel name =
      some ({}, { s with stack := s.stack.push e.value, lines := s.lines + 1 }) := by
  obtain ⟨l, hline⟩ := process?_eq_respond hname hs hfind hbehavior
  let entered : Session := { s.startLine with location := l, cursor := entry }
  have hlaid' : Laid d entered.code (e.words ++ []) entered.cursor stop := by rwa [List.append_nil]
  obtain ⟨cursor, hnil, hreach⟩ := ends_of_sum (v := entered) he hstandard hcarries hlaid'
  cases hnil
  let summed : Session := { entered with stack := entered.stack.push e.value, cursor := stop }
  have hup : summed.upcoming? = some (.primitive .exit) :=
    behaviorAt?_of_vocabulary (s := summed) hstandard hcarries (by decide) Vocabulary.get?_exitIndex
      hexit
  have hends : Ends entered (.returned none) summed.skipCell := hreach (.stop (step_of_primitive hup))
  obtain ⟨fuel, o, hprocess, hsession, hcomplaint⟩ := hline _ _ hends
  refine ⟨fuel, ?_⟩
  rw [hprocess]
  cases o with
  | error f u => cases hcomplaint
  | ok _ u =>
    have hu : u = { s.startLine with stack := s.stack.push e.value, location := l } := hsession
    rw [hu, respond_withStack hend]

/-- A sum that is typed puts its value on the parameter stack, and leaves everything else but the number
of the line as it was. A word that it is made the definition of puts the same value there. -/
theorem Reachable.process?_sum_line (hs : s.Reachable) (hmode : s.mode = .immediate)
    (hphase : s.phase = .idle) (hcursor : s.cursor = s.code.size)
    (hplus : s.dictionary.Names "+" .add) (hcolon : s.dictionary.Names ":" .colon)
    (hsemicolon : s.dictionary.Names ";" .semicolon) (e : Expression)
    (hnumbers : ∀ word ∈ s.dictionary.words, word.isVisible = true →
      word.name ∉ e.leaves.map Cell.text) :
    ∃ value : Cell, value.toInt = (e.leaves.map Int64.toInt).sum.bmod (2 ^ 64) ∧
      (∀ fuel line, Text.words line = e.words → s.process? fuel line =
        some ({}, { s with stack := s.stack.push value, lines := s.lines + 1 })) ∧
      ∀ name definition call, Text.IsWord name →
        Text.words definition = ":" :: name :: (e.words ++ [";"]) → Text.words call = [name] →
        ∃ defined, (∀ fuel, s.process? fuel definition = some ({}, defined)) ∧
          defined.stack = s.stack ∧ ∃ enough, ∀ fuel, enough ≤ fuel → defined.process? fuel call =
            some ({}, { defined with
              stack := defined.stack.push value
              lines := defined.lines + 1 }) := by
  have he : e.MeantBy s.dictionary := by
    refine ⟨hplus, ?_⟩
    intro value hvalue
    apply Dictionary.find?_eq_none
    intro word hword hvisible hname
    exact hnumbers word hword hvisible (hname ▸ List.mem_map_of_mem hvalue)
  have hsteady : s.Steady s.dictionary := ⟨hs.returns_eq_nil, hphase, hmode, rfl⟩
  refine ⟨e.value, e.toInt_value, ?_, ?_⟩
  · intro fuel line hwords
    exact process?_sum he hsteady hs.endLine_eq hwords fuel
  · intro name definition call hname hdefinition hcall
    have hbody : ∀ word ∈ e.words, Text.IsWord word ∧ s.dictionary.Compiles word := by
      intro word hword
      exact compiles_of_mem_words he hs.standard hword
    obtain ⟨code, stop, hprocess, -, hlaid, hexit⟩ := process?_definition hs.returns_eq_nil hs.standard
      hmode hphase hcursor hcolon hsemicolon hname hbody
    let word : Word := { name, behavior := .compiled s.code.size }
    let defined : Session := { s.endLine with
      lines := s.lines + 1, code := code, cursor := code.size, mode := .immediate, phase := .idle
      dictionary := s.dictionary.add word }
    have hline : ∀ fuel, s.process? fuel definition = some ({}, defined) := by
      intro fuel
      refine process?_of_words ?_ rfl (hprocess fuel)
      rw [hdefinition, Text.words_intercalate
        (isWord_of_mem_definition hname fun text htext => (hbody text htext).1)]
    have hfind : defined.dictionary.find? name = some (s.dictionary.size, word) := by
      refine (s.dictionary.find?_add word name).trans (if_pos ?_)
      simp [word, Word.isVisible, hname.1]
    obtain ⟨enough, hcalled⟩ := process?_compiled_sum (s := defined) he hs.standard
      (Dictionary.grows_add _ _).carries ⟨hs.returns_eq_nil, rfl, rfl, rfl⟩ rfl hname hfind rfl hlaid
      hexit
    refine ⟨defined, hline, rfl, enough, ?_⟩
    intro fuel hfuel
    refine process?_of_words ?_ rfl (process?_mono hfuel hcalled)
    rw [hcall, Text.words_of_isWord hname]

/-- A sum all of whose additions wrap around. -/
def wrapping : Expression :=
  .sum (.number 9223372036854775807) (.sum (.number 2) (.number 9223372036854775807))

/-- The sum is 2⁶⁴, typed and as the definition of a word where another number is one. -/
theorem wrapping_sum_line : numberedWithThree.Reachable ∧
    numberedWithThree.process? 0 "9223372036854775807 2 9223372036854775807 + +" =
      some ({}, { numberedWithThree with stack := ⟨#[3, 0]⟩, lines := 2 }) ∧
    ∃ defined,
      numberedWithThree.process? 0 ": + 9223372036854775807 2 9223372036854775807 + + ;" =
        some ({}, defined) ∧
      ∃ fuel, defined.process? fuel "+" = some ({}, { defined with
        stack := ⟨#[3, 0]⟩
        lines := defined.lines + 1 }) := by
  have hprocess : process? 0 .initial ": 5 dup ; 3" = some ({}, numberedWithThree) := by decide +kernel
  have hreachable : numberedWithThree.Reachable := .line .initial hprocess
  obtain ⟨value, hvalue, htyped, hcompiled⟩ := hreachable.process?_sum_line rfl rfl rfl
    (by decide +kernel) (by decide +kernel) (by decide +kernel) wrapping (by decide +kernel)
  have hzero : value = 0 := by
    apply Int64.toInt_inj.mp
    rw [hvalue]
    decide +kernel
  obtain ⟨defined, hdefined, hstack, enough, hcalled⟩ := hcompiled "+"
    ": + 9223372036854775807 2 9223372036854775807 + + ;" "+" (by decide) (by decide +kernel)
    (by decide +kernel)
  refine ⟨hreachable, ?_, defined, hdefined 0, enough, ?_⟩
  · rw [htyped 0 _ (by decide +kernel), hzero]
    rfl
  · rw [hcalled enough (Nat.le_refl enough), hzero, hstack]
    rfl

end Session

end MiniForth
