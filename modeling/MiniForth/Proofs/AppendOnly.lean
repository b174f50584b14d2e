import MiniForth.Proofs.CallDiscipline
import MiniForth.Proofs.Writes

/-!
# What lines write

Between calls the cursor is where code memory is written next, and tokens that compile write from there
on. Only a call can write elsewhere: the cursor is then the one of execution, and a `;` that is
dispatched puts an `exit` behind itself, into a definition that is there already or behind the end of
code memory. So code memory is append-only as long as no call does that.

`Session.Appends` relates a session to a later one, with or without such calls.

* `writes_of_interprets`: a token compiles cells, or it runs code.
* `Appends.interprets`: so every token appends.
* `Reachable.append_only`: so does every line.
-/

namespace MiniForth

namespace Session

/-! ## Appending -/

/-- `t` comes after `s` and has kept what was written below the cursor, but for an `exit` here and there
if `rewrites` allows that. -/
structure Appends (rewrites : Prop) (s t : Session) : Prop where
  cursor : s.cursor ≤ t.cursor
  size   : s.code.size ≤ t.code.size
  /-- The cursor leaves no gap. -/
  within : t.cursor ≤ t.code.size
  kept   : ∀ address < s.cursor, t.code.get? address = s.code.get? address ∨
    rewrites ∧ t.code.get? address = some (Cell.ofIndex Vocabulary.exitIndex)
  /-- A cursor at the end of code memory stays there. -/
  flush  : ¬ rewrites → s.cursor = s.code.size → t.cursor = t.code.size

variable {rewrites : Prop} {s t u : Session}

theorem Appends.refl (hwithin : s.cursor ≤ s.code.size) : s.Appends rewrites s where
  cursor := Nat.le_refl _
  size := Nat.le_refl _
  within := hwithin
  kept := fun _ _ => .inl rfl
  flush := fun _ hcursor => hcursor

theorem Appends.trans (h : s.Appends rewrites t) (h' : t.Appends rewrites u) :
    s.Appends rewrites u where
  cursor := Nat.le_trans h.cursor h'.cursor
  size := Nat.le_trans h.size h'.size
  within := h'.within
  kept := by
    intro address haddress
    rcases h'.kept address (Nat.lt_of_lt_of_le haddress h.cursor) with hsame | hexit
    · rw [hsame]
      exact h.kept address haddress
    · exact .inr hexit
  flush := by
    intro hnot hcursor
    exact h'.flush hnot (h.flush hnot hcursor)

/-- To compile cells is to append them. -/
theorem appends_of_pokeAll (hwithin : s.cursor ≤ s.code.size) {cells : List Cell}
    (hcode : t.code = pokeAll s.code s.cursor cells) (hcursor : t.cursor = s.cursor + cells.length) :
    s.Appends rewrites t := by
  have hsize : t.code.size = max s.code.size (s.cursor + cells.length) := by
    rw [hcode, size_pokeAll hwithin]
  refine ⟨?_, ?_, ?_, ?_, ?_⟩
  · omega
  · omega
  · omega
  · intro address haddress
    rw [hcode, get?_pokeAll_of_lt hwithin haddress]
    exact .inl rfl
  · intro _ hflush
    omega

/-- A call puts the cursor back, so it appends if its code spares code memory. -/
theorem appends_of_run? (hreturns : s.returns = []) (hwithin : s.cursor ≤ s.code.size)
    {fuel entry : Nat} {o : Outcome Unit} (hrun : s.run? fuel entry = some o)
    (hspares : ¬ rewrites → (Call.start s entry).Always SparesCode) :
    s.Appends rewrites (Outcome.session o) := by
  have hcursor := cursor_of_run? hreturns hrun
  obtain ⟨hsize, hcells⟩ := get?_of_run? hrun
  refine ⟨Nat.le_of_eq hcursor.symm, hsize, ?_, ?_, ?_⟩
  · omega
  · intro address _
    by_cases h : rewrites
    · rcases hcells address with hsame | hexit
      · exact .inl hsame
      · exact .inr ⟨h, hexit⟩
    · rw [code_of_run? (hspares h) hrun]
      exact .inl rfl
  · intro hnot hflush
    rw [hcursor, code_of_run? (hspares hnot) hrun, hflush]

/-! ## Tokens -/

/-- A primitive that is run at the top level compiles at most one cell. -/
theorem writes_of_performOnTokens (hreturns : s.returns = []) (p : Primitive) :
    ∃ cells, (Outcome.session (p.performOnTokens s)).code = pokeAll s.code s.cursor cells ∧
      (Outcome.session (p.performOnTokens s)).cursor = s.cursor + cells.length := by
  obtain ⟨pending, hsession⟩ := session_performOnTokens p hreturns
  rw [hsession]
  generalize h : Outcome.session (p.perform s) = t
  cases Primitive.leaves_of_perform h with
  | nothing | computes | hide | reveal | colon => exact ⟨[], rfl, rfl⟩
  | semicolon => exact ⟨[Cell.ofIndex Vocabulary.exitIndex], rfl, rfl⟩

/-- A token compiles cells, possibly none, or it runs code. -/
theorem writes_of_interprets (hreturns : s.returns = []) {fuel : Nat} {token : Token}
    {o : Outcome Unit} (h : s.Interprets fuel token o) :
    (∃ cells, (Outcome.session o).code = pokeAll s.code s.cursor cells ∧
      (Outcome.session o).cursor = s.cursor + cells.length) ∨
    ∃ word entry, s.executed? token = some word ∧ word.behavior = .compiled entry ∧
      s.run? fuel entry = some o := by
  cases h with
  | compileNumber => exact .inl ⟨[_, _], rfl, rfl⟩
  | compileWord => exact .inl ⟨[_], rfl, rfl⟩
  | perform => exact .inl (writes_of_performOnTokens hreturns _)
  | @run index word entry _ hphase hpending hfind hruns hbehavior hrun =>
    exact .inr ⟨word, entry, executed?_eq hphase hpending hfind hruns, hbehavior, hrun⟩
  | _ => exact .inl ⟨[], rfl, rfl⟩

/-- Code that the token runs dispatches `;` only in front of an `exit`. -/
def RunsSparingly (s : Session) (token : Token) : Prop :=
  ∀ word entry, s.executed? token = some word → word.behavior = .compiled entry →
    (Call.start s entry).Always SparesCode

theorem appends_of_interprets (hreturns : s.returns = []) (hwithin : s.cursor ≤ s.code.size)
    {fuel : Nat} {token : Token} {o : Outcome Unit} (h : s.Interprets fuel token o)
    (hspares : ¬ rewrites → s.RunsSparingly token) : s.Appends rewrites (Outcome.session o) := by
  rcases writes_of_interprets hreturns h with
    ⟨cells, hcode, hcursor⟩ | ⟨word, entry, hword, hentry, hrun⟩
  · exact appends_of_pokeAll hwithin hcode hcursor
  · apply appends_of_run? hreturns hwithin hrun
    intro hnot
    exact hspares hnot word entry hword hentry

/-! ## Lines -/

/-- All code that the line runs dispatches `;` only in front of an `exit`. -/
def LineRunsSparingly (s : Session) (line : String) : Prop :=
  ∀ s' token, Meets s.startLine (Token.ofLine source s.startLine.lines line) s' token →
    s'.RunsSparingly token

theorem appends_of_process? (hreturns : s.returns = []) (hwithin : s.cursor ≤ s.code.size)
    {fuel : Nat} {line : String} {response : Response}
    (h : s.process? fuel line = some (response, t))
    (hspares : ¬ rewrites → s.LineRunsSparingly line) : s.Appends rewrites t := by
  apply process?_invariant_of_returns (P := s.Appends rewrites) _ _ _ _ hreturns (.refl hwithin) h
  · intro u l hsu
    exact { hsu with }
  · intro u token o hmeets hu hsu hinterprets
    have hstep : u.Appends rewrites (Outcome.session o) :=
      appends_of_interprets hu hsu.within hinterprets fun hnot => hspares hnot u token hmeets
    exact hsu.trans hstep
  · intro u hsu
    exact { hsu with }
  · intro u hsu
    exact { hsu with }

/-- Code memory has been written at least up to the cursor. -/
theorem Reachable.cursor_le_size (hs : s.Reachable) : s.cursor ≤ s.code.size := by
  induction hs with
  | initial => exact Nat.le_refl 0
  | @line s t _ _ _ hs h ih =>
    have happends : s.Appends True t := appends_of_process? hs.returns_eq_nil ih h (absurd trivial)
    exact happends.within

theorem isPrefix_of_get? {code code' : Stack Cell}
    (h : ∀ address < code.size, code'.get? address = code.get? address) :
    code.toList <+: code'.toList := by
  rw [List.prefix_iff_getElem?]
  intro address haddress
  rw [Stack.getElem?_toList, h address haddress, ← Stack.getElem?_toList,
    List.getElem?_eq_getElem haddress]

/-- Lines write at the cursor and behind it. Below it a line leaves every cell as it is or makes it an
`exit`. If all code that the line runs dispatches `;` only in front of an `exit`, every cell is left as
it is, and a cursor at the end of code memory stays at the end. -/
theorem Reachable.append_only (hs : s.Reachable) {fuel : Nat} {line : String} {response : Response}
    (h : s.process? fuel line = some (response, t)) :
    (s.cursor ≤ t.cursor ∧ s.code.size ≤ t.code.size ∧ t.cursor ≤ t.code.size ∧
      ∀ address < s.cursor, t.code.get? address = s.code.get? address ∨
        t.code.get? address = some (Cell.ofIndex Vocabulary.exitIndex)) ∧
    (s.LineRunsSparingly line →
      (∀ address < s.cursor, t.code.get? address = s.code.get? address) ∧
      (s.cursor = s.code.size → t.cursor = t.code.size ∧ s.code.toList <+: t.code.toList)) := by
  have hreturns := hs.returns_eq_nil
  have hwithin := hs.cursor_le_size
  constructor
  · have happends : s.Appends True t := appends_of_process? hreturns hwithin h (absurd trivial)
    refine ⟨happends.cursor, happends.size, happends.within, ?_⟩
    intro address haddress
    exact (happends.kept address haddress).imp_right And.right
  · intro hspares
    have happends : s.Appends False t := appends_of_process? hreturns hwithin h fun _ => hspares
    have hkept : ∀ address < s.cursor, t.code.get? address = s.code.get? address := by
      intro address haddress
      exact (happends.kept address haddress).resolve_right And.left
    refine ⟨hkept, ?_⟩
    intro hflush
    refine ⟨happends.flush not_false hflush, isPrefix_of_get? ?_⟩
    rwa [← hflush]

/-! ## With and without such code -/

/-- `RunsSparingly`, checked where the code comes to its end within `fuel` turns. -/
def runsSparingly (fuel : Nat) (s : Session) (token : Token) : Bool :=
  match (s.executed? token).map Word.behavior with
  | some (.compiled entry) => (Call.start s entry).checks SparesCode fuel
  | _                      => true

theorem runsSparingly_of_check {fuel : Nat} {token : Token} (h : s.runsSparingly fuel token = true) :
    s.RunsSparingly token := by
  intro word entry hword hentry
  rw [runsSparingly, hword, Option.map_some, hentry] at h
  exact Call.always_of_checks h

/-- A session after `: end ] branch 8 exit ;`. The branch leads to the cell of the number, which is the
index of `;`, and the cell behind it is an `exit` already. -/
def sparing : Session :=
  { Session.initial with
    code       := ⟨#[4, 15, 2, 8, 0, 0]⟩
    cursor     := 6
    dictionary := Vocabulary.dictionary.add { name := "end", behavior := .compiled 0 }
    lines      := 1 }

theorem sparing_append_only : sparing.Reachable ∧ sparing.LineRunsSparingly "end : two 2 ;" ∧
    ∃ t, sparing.process? 9 "end : two 2 ;" = some ({}, t) ∧ t.cursor = t.code.size ∧
      sparing.code.toList <+: t.code.toList := by
  have hprocess : process? 0 .initial ": end ] branch 8 exit ;" = some ({}, sparing) := by decide +kernel
  have hreachable : sparing.Reachable := .line .initial hprocess
  let tokens := Token.ofLine source sparing.startLine.lines "end : two 2 ;"
  have hspares : sparing.LineRunsSparingly "end : two 2 ;" := by
    intro s' token h
    have hall : ∀ found ∈ met 9 sparing.startLine tokens, found.1.runsSparingly 9 found.2 = true := by
      decide +kernel
    exact runsSparingly_of_check (hall _ (mem_met h (by decide +kernel)))
  have hline : sparing.process? 9 "end : two 2 ;" = some ({}, { sparing with
      code       := ⟨#[4, 15, 2, 8, 0, 0, 2, 2, 0]⟩
      cursor     := 9
      dictionary := sparing.dictionary.add { name := "two", behavior := .compiled 6 }
      lines      := 2 }) := by decide +kernel
  obtain ⟨hflush, hprefix⟩ := ((hreachable.append_only hline).2 hspares).2 rfl
  exact ⟨hreachable, hspares, _, hline, hflush, hprefix⟩

/-- A session after `: a branch 8 1 ;`. The branch leads to the cell of the first number, which is the
index of `;`, and the cell behind it announces the second number. -/
def erasing : Session :=
  { Session.initial with
    code       := ⟨#[15, 2, 8, 2, 1, 0]⟩
    cursor     := 6
    dictionary := Vocabulary.dictionary.add { name := "a", behavior := .compiled 0 }
    lines      := 1 }

/-- A session after `: a branch 8 [ reveal`, where that cell is the last one of code memory. -/
def extending : Session :=
  { Session.initial with
    code       := ⟨#[15, 2, 8]⟩
    cursor     := 3
    dictionary := Vocabulary.dictionary.add { name := "a", behavior := .compiled 0 }
    phase      := .compiling
    lines      := 1 }

/-- Not every line appends. The line `a` changes a cell of a finished definition in the one session,
and in the other it writes a cell behind the cursor. -/
theorem not_append_only :
    ¬ (∀ (s t : Session) (fuel : Nat) (line : String) (response : Response), s.Reachable →
      s.process? fuel line = some (response, t) → s.code.toList <+: t.code.toList) ∧
    ¬ (∀ (s t : Session) (fuel : Nat) (line : String) (response : Response), s.Reachable →
      s.process? fuel line = some (response, t) → t.cursor = t.code.size) := by
  constructor
  · intro hprefix
    have hprocess : process? 0 .initial ": a branch 8 1 ;" = some ({}, erasing) := by decide +kernel
    have hends : (erasing.process? 9 "a").map (fun r => r.2.code.toList) =
        some [15, 2, 8, 0, 1, 0] := by decide +kernel
    obtain ⟨⟨response, t⟩, hline, hcode⟩ := Option.map_eq_some_iff.mp hends
    have hbroken := hprefix erasing t 9 "a" response (.line .initial hprocess) hline
    rw [show t.code.toList = _ from hcode] at hbroken
    revert hbroken
    decide
  · intro hflush
    have hprocess : process? 0 .initial ": a branch 8 [ reveal" = some ({}, extending) := by
      decide +kernel
    have hends : (extending.process? 9 "a").map (fun r => (r.2.cursor, r.2.code.size)) =
        some (3, 4) := by decide +kernel
    obtain ⟨⟨response, t⟩, hline, hsizes⟩ := Option.map_eq_some_iff.mp hends
    have hbroken := hflush extending t 9 "a" response (.line .initial hprocess) hline
    have hcursor : t.cursor = 3 := congrArg Prod.fst hsizes
    have hsize : t.code.size = 4 := congrArg Prod.snd hsizes
    omega

end Session

end MiniForth
