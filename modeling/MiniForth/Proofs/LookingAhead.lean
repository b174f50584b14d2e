import MiniForth.Proofs.Tokens
import MiniForth.Text.Lookahead

/-!
# Looking and reading in any order

A reader is asked for characters, to look at or to read, in any order and also behind the end of the line.
What it answers depends on how many characters were asked to be read before, and on nothing else.

* `Reader.ask_eq`: what one question does.
* `Reader.getElem?_answers`, `Reader.consumed_answers`: what questions in a row come to.
* `Lookahead.answers_eq`: the same is answered where a character that was looked at has to be held.
* `Lookahead.tokens_ofLine`: so the words that are read that way are the words of the line.
-/

namespace MiniForth

/-- What a reader can be asked for: the next character, to look at or to read. -/
inductive Ask where
  | peek
  | next
  deriving DecidableEq

/-- What a question comes to: the character, if there was one left, and the location afterwards. -/
structure Glimpse where
  char     : Option Char
  location : Location
  deriving DecidableEq

namespace Ask

/-- The answers to questions in a row, of what answers one by `ask` and says by `place` where it stands. -/
def answers {σ : Type} (ask : σ → Ask → Option Char × σ) (place : σ → Location) : σ → List Ask → List Glimpse
  | _, []                   => []
  | state, question :: asks =>
    let (char, after) := ask state question
    { char, location := place after } :: answers ask place after asks

/-- How often the questions ask to read. -/
def reads (asks : List Ask) : Nat := asks.count .next

/-- How many characters they had read: one for each time that there was one to read. -/
def consumed (asks : List Ask) (answers : List Glimpse) : Nat :=
  (asks.zip answers).countP fun (ask, glimpse) => ask = .next ∧ glimpse.char.isSome

theorem reads_cons (ask : Ask) (asks : List Ask) : reads (ask :: asks) = reads [ask] + reads asks := by
  rw [reads, ← List.singleton_append, List.count_append]
  rfl

theorem reads_take_of_peeks {asks : List Ask} {i j : Nat} (hle : i ≤ j)
    (h : ∀ k, i ≤ k → k < j → asks[k]? = some .peek) : reads (asks.take i) = reads (asks.take j) := by
  induction hle with
  | refl => rfl
  | @step j hle ih =>
    rw [ih fun k hi hj => h k hi (Nat.lt_succ_of_lt hj), List.take_add_one, h j hle (Nat.lt_succ_self j)]
    simp [reads]

end Ask

/-! ## Readers -/

namespace Reader

/-- The answer to a question, and the reader after it. -/
def ask (r : Reader) : Ask → Option Char × Reader
  | .peek => (r.peek?, r)
  | .next => r.next

/-- The answers to questions in a row. -/
def answers (r : Reader) (asks : List Ask) : List Glimpse := Ask.answers Reader.ask Reader.location r asks

theorem answers_cons (r : Reader) (ask : Ask) (asks : List Ask) : r.answers (ask :: asks) =
    { char := (r.ask ask).1, location := (r.ask ask).2.location } :: (r.ask ask).2.answers asks := rfl

/-- The reader after questions in a row that ask to read `count` times. -/
def after (r : Reader) (count : Nat) : Reader where
  location := r.location.advance (min count r.rest.length)
  rest     := r.rest.drop count

theorem after_after (r : Reader) (m n : Nat) : (r.after m).after n = r.after (m + n) := by
  have hcount : min m r.rest.length + min n (r.rest.length - m) = min (m + n) r.rest.length := by omega
  simp only [after, Location.advance_advance, List.length_drop, List.drop_drop, hcount]

/-- A question shows the character in front, and moves past it if it asks to read. -/
theorem ask_eq (r : Reader) (ask : Ask) : r.ask ask = (r.rest[0]?, r.after (Ask.reads [ask])) := by
  obtain ⟨location, _ | ⟨c, cs⟩⟩ := r <;> cases ask <;> rfl

theorem length_answers (r : Reader) (asks : List Ask) : (r.answers asks).length = asks.length := by
  induction asks generalizing r with
  | nil => rfl
  | cons ask asks ih => rw [answers_cons, List.length_cons, ih, List.length_cons]

theorem take_answers (r : Reader) (asks : List Ask) (n : Nat) :
    (r.answers asks).take n = r.answers (asks.take n) := by
  induction asks generalizing r n with
  | nil => simp [answers, Ask.answers]
  | cons ask asks ih =>
    cases n with
    | zero => rfl
    | succ n => rw [answers_cons, List.take_succ_cons, ih, List.take_succ_cons, answers_cons]

/-- Of all that was asked before, it matters for an answer only how often it asked to read. -/
theorem getElem?_answers (r : Reader) (asks : List Ask) (i : Nat) :
    (r.answers asks)[i]? = asks[i]?.map fun _ =>
      { char     := r.rest[Ask.reads (asks.take i)]?
        location := (r.after (Ask.reads (asks.take (i + 1)))).location } := by
  induction asks generalizing r i with
  | nil => simp [answers, Ask.answers]
  | cons ask asks ih =>
    rw [answers_cons, ask_eq]
    cases i with
    | zero => simp [Ask.reads]
    | succ i =>
      rw [List.getElem?_cons_succ, ih, List.getElem?_cons_succ, List.take_succ_cons, List.take_succ_cons,
        Ask.reads_cons ask (asks.take i), Ask.reads_cons ask (asks.take (i + 1)), after_after]
      simp only [after, List.getElem?_drop]

/-- Each time it is asked to read it reads a character, while there are any. -/
theorem consumed_answers (r : Reader) (asks : List Ask) :
    Ask.consumed asks (r.answers asks) = min (Ask.reads asks) r.rest.length := by
  induction asks generalizing r with
  | nil => simp [Ask.consumed, Ask.reads]
  | cons ask asks ih =>
    have hfirst : ([(ask, ({ char := r.rest[0]?, location := (r.after (Ask.reads [ask])).location } :
        Glimpse))].countP fun (ask, glimpse) => ask = .next ∧ glimpse.char.isSome) =
        min (Ask.reads [ask]) r.rest.length := by
      cases ask <;> rcases r.rest with _ | ⟨c, cs⟩ <;> simp [Ask.reads]
    rw [answers_cons, ask_eq, Ask.consumed, List.zip_cons_cons, ← List.singleton_append, List.countP_append,
      hfirst, ← Ask.consumed, ih, Ask.reads_cons ask asks]
    simp only [after, List.length_drop]
    omega

end Reader

/-! ## Looking ahead -/

namespace Lookahead

/-- The answer to a question, and the state after it. -/
def ask (l : Lookahead) : Ask → Option Char × Lookahead
  | .peek => l.peek
  | .next => l.next

/-- The answers to questions in a row. -/
def answers (l : Lookahead) (asks : List Ask) : List Glimpse :=
  Ask.answers Lookahead.ask Lookahead.location l asks

theorem answers_cons (l : Lookahead) (ask : Ask) (asks : List Ask) : l.answers (ask :: asks) =
    { char := (l.ask ask).1, location := (l.ask ask).2.location } :: (l.ask ask).2.answers asks := rfl

theorem ask_eq (l : Lookahead) (ask : Ask) :
    ((l.ask ask).1, (l.ask ask).2.reader) = l.reader.ask ask := by
  cases ask with
  | peek => exact l.peek_eq
  | next => exact l.next_eq

/-- Nobody who asks can tell it from a reader. -/
theorem answers_eq (l : Lookahead) (asks : List Ask) : l.answers asks = l.reader.answers asks := by
  induction asks generalizing l with
  | nil => rfl
  | cons ask asks ih =>
    rw [answers_cons, Reader.answers_cons, ← ask_eq, ih]
    rfl

/-- Looking never disturbs reading. However the two are mixed, the characters are read one after the other
and then there are none; what is looked at is what comes next, looked at or read; and the location counts
the characters that have been read. -/
theorem answers_of_mixed (path : String) (line : Nat) (text : String) (asks : List Ask) :
    let answers : List Glimpse := (ofLine path line text).answers asks
    answers.length = asks.length ∧
    (∀ (i : Nat) (glimpse : Glimpse), answers[i]? = some glimpse →
      glimpse.char = text.toList[Ask.reads (asks.take i)]?) ∧
    (∀ (i j : Nat) (looked next : Glimpse), answers[i]? = some looked → answers[j]? = some next → i ≤ j →
      (∀ k, i ≤ k → k < j → asks[k]? = some .peek) → looked.char = next.char) ∧
    (∀ (i : Nat) (glimpse : Glimpse), answers[i]? = some glimpse → glimpse.location =
      { path, line, column := 1 + Ask.consumed (asks.take (i + 1)) (answers.take (i + 1)) }) ∧
    (∀ i, Ask.consumed (asks.take i) (answers.take i) ≤ text.length) ∧
    answers = (Reader.ofLine path line text).answers asks := by
  intro answers
  let r := Reader.ofLine path line text
  have hanswers : answers = r.answers asks := answers_eq _ asks
  have hchar : ∀ i glimpse, answers[i]? = some glimpse →
      glimpse.char = text.toList[Ask.reads (asks.take i)]? := by
    intro i glimpse h
    rw [hanswers, r.getElem?_answers] at h
    obtain ⟨-, -, rfl⟩ := Option.map_eq_some_iff.mp h
    rfl
  have hconsumed : ∀ i, Ask.consumed (asks.take i) (answers.take i) =
      min (Ask.reads (asks.take i)) text.length := by
    intro i
    rw [hanswers, r.take_answers, r.consumed_answers, ← String.length_toList]
    rfl
  refine ⟨?_, hchar, ?_, ?_, ?_, hanswers⟩
  · rw [hanswers, r.length_answers]
  · intro i j looked next hi hj hle hpeek
    rw [hchar i looked hi, hchar j next hj, Ask.reads_take_of_peeks hle hpeek]
  · intro i glimpse h
    rw [hconsumed]
    rw [hanswers, r.getElem?_answers] at h
    obtain ⟨-, -, rfl⟩ := Option.map_eq_some_iff.mp h
    rw [← String.length_toList]
    rfl
  · intro i
    rw [hconsumed]
    exact Nat.min_le_right _ _

/-! ## Words -/

/-- The words in front are the words that the reader has in front of it. -/
theorem tokens_eq (l : Lookahead) : l.tokens = Token.ofReader l.reader := by
  induction l using tokens.induct with
  | case1 l hnone =>
    have hstep : l.tokens = [] := by
      rw [tokens]
      split <;> simp_all
    have hrest : l.reader.rest = [] := by
      rwa [fst_peek, Reader.peek?, List.head?_eq_none_iff] at hnone
    rw [hstep, Token.ofReader_nil (by simp [hrest])]
  | case2 l c hc hseparator ih =>
    have hstep : l.tokens = (l.peek.2.span Text.isSeparator).2.tokens := by
      rw [tokens]
      split <;> simp_all
    rw [hstep, ih, reader_span, reader_peek]
    exact Token.ofReader_skipSeparators l.reader
  | case3 l c hc hseparator word ih =>
    have hstep : l.tokens =
        { text := String.ofList word.1, location := l.peek.2.location } :: word.2.tokens := by
      rw [tokens]
      split
      · next hnone => cases hc.symm.trans hnone
      · next x hx =>
        cases hc.symm.trans hx
        exact dif_neg hseparator
    have hpeek : l.reader.peek? = some c := l.fst_peek ▸ hc
    have hskip : Token.skipSeparators l.reader = l.reader := by
      rw [Token.skipSeparators, Reader.span_of_stops (by simpa [hpeek] using hseparator)]
    have hword : (word.1, word.2.reader) = Token.word l.reader := by
      rw [span_eq, reader_peek, Token.word]
    have hne : (Token.word l.reader).1 ≠ [] := by
      rw [Token.word, Reader.span_of_peek? hpeek (by simpa using hseparator)]
      exact List.cons_ne_nil c _
    have hlocation : l.peek.2.location = l.reader.location := congrArg Reader.location l.reader_peek
    rw [hstep, ih, Token.ofReader.eq_1 l.reader, hskip, dif_neg hne, ← hword, hlocation]

theorem tokens_ofLine (path : String) (line : Nat) (text : String) :
    (ofLine path line text).tokens = Token.ofLine path line text := by
  rw [tokens_eq, reader_ofLine, Token.ofLine]

end Lookahead

end MiniForth
