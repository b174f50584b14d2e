import MiniForth.Proofs.CompileThenCall
import MiniForth.Proofs.Surroundings

/-!
# Splitting a line

A separator in a line can be made a line break. The session keeps what the first line has done, the
middle of a definition included. What it forgets between the lines is what has been printed, the
background colour that has been chosen, and where the tokens stand, and the words of the second line
look at none of these.

* `Evolves.list_ne_empty`: `words` never prints nothing.
* `Reachable.process?_split`: two lines against the one line that joins them.
-/

namespace MiniForth

theorem Text.intercalate_ne_empty {texts : List String} {text : String} (h : text ∈ texts)
    (hne : text ≠ "") : " ".intercalate texts ≠ "" := by
  rcases texts with _ | ⟨first, _ | ⟨second, others⟩⟩
  · cases h
  · rw [String.intercalate_singleton, ← List.mem_singleton.mp h]
    exact hne
  · rw [String.intercalate_cons_cons]
    simp

/-- Some word is always visible, such as the one that ends definitions: no change reaches it. -/
theorem Dictionary.Evolves.list_ne_empty {d : Dictionary} (h : Vocabulary.dictionary.Evolves d) :
    " ".intercalate d.visibleNames ≠ "" := by
  have hexit : d.words[Vocabulary.exitIndex]? =
      some { name := "exit", behavior := .primitive .exit } := by
    rw [getElem?_words, h.get?_of_lt (by decide), Vocabulary.get?_exitIndex]
  have hname : "exit" ∈ d.visibleNames := by
    rw [visibleNames, List.mem_eraseDups, List.mem_map]
    refine ⟨_, List.mem_filter.mpr ⟨List.mem_reverse.mpr (List.mem_of_getElem? hexit), ?_⟩, rfl⟩
    rfl
  exact Text.intercalate_ne_empty hname (by decide)

namespace Session

/-- In a session that lines lead to, a token performs in compiled code and by itself only where words
are visible. -/
theorem performsOnly_of_evolves {allowed : Session → Primitive → Prop} {s : Session}
    (hs : Vocabulary.dictionary.Evolves s.dictionary)
    (hallowed : ∀ u p, Vocabulary.dictionary.Evolves u.dictionary → allowed u p) (t : Token) :
    s.PerformsOnly allowed t := by
  intro word _
  rcases word.behavior with p | entry
  · exact hallowed s p hs
  · intro n d hturns _ p _
    exact hallowed d.session p (hs.trans hturns.evolves)

/-- What the last token of a line has in store for a further one. -/
def pendingAfter? (fuel : Nat) (s : Session) (line : String) : Option Pending :=
  (s.startLine.interpretAll? fuel (Token.ofLine source s.startLine.lines line)).map fun o =>
    (Outcome.session o).pending

/-- The result of a second line and the result of the line that joins it to a first one. -/
structure Continues (first : Response) (second joined : Response × Session) : Prop where
  session    : second.2 = { joined.2 with lines := joined.2.lines + 1 }
  output     : joined.1.output = Text.joined first.output second.1.output
  background : joined.1.background = (second.1.background <|> first.background)
  complaint  : joined.1.complaint? = second.1.complaint?

/-- What the first line has left in the session, for the second line as if it stood alone. -/
def remains (u : Session) : Surroundings where
  printed  := u.output
  colour   := u.background
  breaks   := 1
  sameLine := False

theorem within_remains {u : Session} (hpending : u.pending = .nothing) :
    u.endLine.startLine.Within u.remains u := by
  apply within_of_eq u.stack.above_nil.symm rfl _ False.elim rfl
  · cases u
    cases hpending
    rfl
  · intro _
    exact (Text.joined_empty_right u.output).symm

theorem endLine_of_within_remains {s t u : Session} (h : s.Within u.remains t) :
    s.endLine = { t.endLine with lines := t.lines + 1 } ∧
      t.output = Text.joined u.output s.output ∧ t.background = (s.background <|> u.background) := by
  cases h with
  | intro hjoined _ hlines =>
    refine ⟨?_, hjoined trivial, rfl⟩
    simp only [endLine, remains, Stack.above_nil]
    rw [← hlines]
    rfl

/-- What is said about the outcomes is said about the responses. -/
theorem continues_respond {u : Session} {o o' : Outcome Unit}
    (h : Outcome.Within u.remains o o') :
    Continues (respond (.ok () u)).1 (respond o) (respond o') := by
  cases h with
  | ok hst =>
    obtain ⟨hend, hjoined, hchosen⟩ := endLine_of_within_remains hst
    exact ⟨hend, hjoined, hchosen, rfl⟩
  | error hst hreports =>
    obtain ⟨hend, hjoined, hchosen⟩ := endLine_of_within_remains hst
    exact ⟨hend, hjoined, hchosen, congrArg some (Prod.ext hreports.kind hreports.message)⟩

/-- A line break can stand for a separator where the first line does not fail and leaves nothing in
store: then the two lines leave the session that the joined line leaves, and what the joined line
answers is put together from the two answers. Without an end of the second line there is none of the
joined one either. -/
theorem Reachable.process?_split {s t : Session} (hs : s.Reachable) {fuel : Nat} {c : Char}
    (hc : Text.isSeparator c = true) {first : String} {response : Response}
    (hfirst : s.process? fuel first = some (response, t)) (hok : response.failure = none)
    (hpending : s.pendingAfter? fuel first = some .nothing) (second : String) {n : Nat}
    (hn : fuel ≤ n) :
    Option.Rel (Continues response) (t.process? n second)
      (s.process? n (first ++ String.singleton c ++ second)) := by
  obtain ⟨o, ho, hresponse⟩ := Option.map_eq_some_iff.mp hfirst
  rw [pendingAfter?, ho] at hpending
  cases o with
  | error f u => cases hresponse; cases hok
  | ok _ u =>
    cases hresponse
    obtain ⟨ts, hsplit, htexts⟩ := Token.ofLine_split source s.startLine.lines hc first second
    have hreachable : (endLine u).Reachable := .line hs hfirst
    have hsuits : ∀ s' token, Meets u.endLine.startLine
        (Token.ofLine source u.endLine.startLine.lines second) s' token →
        s'.PerformsOnly u.remains.Suits token := by
      intro s' token hmeets
      have hevolves := hreachable.evolves.trans (hmeets.evolves hreachable.returns_eq_nil)
      exact performsOnly_of_evolves hevolves
        (fun v p hv => ⟨.inl rfl, fun _ _ => rfl, fun _ _ => .inr hv.list_ne_empty⟩) token
    have hwithin : u.endLine.startLine.Within u.remains u :=
      within_remains (Option.some.inj hpending)
    have hall := hwithin.interpretAll? (htexts _) False.elim hsuits n
    rw [process?, process?, hsplit, interpretAll?_append, interpretAll?_mono hn ho]
    exact rel_map hall fun _ _ houtcomes => continues_respond houtcomes

/-- A session after `1 . 5 bg : double dup`. -/
def halfway : Session :=
  { Session.initial with
    code       := ⟨#[11]⟩
    cursor     := 1
    dictionary := Vocabulary.dictionary.add
      { name := "double", hidden := true, behavior := .compiled 0 }
    mode       := .compile
    phase      := .compiling
    lines      := 1 }

/-- The definition is ended behind the line break, and then the line prints and fails. -/
theorem halfway_process?_split : ∃ response t,
    process? 9 .initial "1 . 5 bg : double dup,+ ; 4 double . nope" = some (response, t) ∧
      response.output = "1 8" ∧ response.background = some 5 ∧
      response.complaint? = some (.undefinedWord, "Word nope not found.") := by
  have hfirst : process? 0 .initial "1 . 5 bg : double dup" =
      some ({ output := "1", background := some 5 }, halfway) := by decide +kernel
  have hends : (halfway.process? 9 "+ ; 4 double . nope").map (fun r =>
      (r.1.output, r.1.background, r.1.complaint?)) =
        some ("8", none, some (.undefinedWord, "Word nope not found.")) := by decide +kernel
  have hrel := Reachable.process?_split .initial (c := ',') rfl hfirst rfl (by decide +kernel)
    "+ ; 4 double . nope" (Nat.zero_le 9)
  obtain ⟨⟨alone, u⟩, hsecond, hresponse⟩ := Option.map_eq_some_iff.mp hends
  rw [hsecond] at hrel
  obtain ⟨⟨response, t⟩, hjoined, hcontinues⟩ := exists_of_rel hrel
  simp only [Prod.mk.injEq] at hresponse
  obtain ⟨houtput, hbackground, hcomplaint⟩ := hresponse
  refine ⟨response, t, hjoined, ?_, ?_, ?_⟩
  · rw [hcontinues.output, houtput]
    rfl
  · rw [hcontinues.background, hbackground]
    rfl
  · rw [hcontinues.complaint, hcomplaint]

end Session

end MiniForth
