import MiniForth.Proofs.AppendOnly
import MiniForth.Proofs.Moments

/-!
# Code memory without gaps

Cells are written where the cursor is: by a token that compiles, and by code that carries out `;`. A
branch at the end of code memory moves the cursor past that end, but nothing is written there, because
the next dispatch finds no cell. So code memory is filled from its start on, and no cell of it has ever
been a filler.

`Moment.target` and `Moment.cells` say what the step from a moment writes.

* `Next.code`: the step writes that and nothing else.
* `Arises.target_le`: it begins at a cell that there is, or right behind the last one.
* `Arises.precedes`: what later moments keep of code memory and of the cursor.
* `Arises.code_without_gap`: all of this for every moment.
-/

namespace MiniForth

/-! ## One write -/

namespace Stack

variable {code : Stack Cell} {address : Nat} {cell : Cell}

/-- To write the cell at the address leaves no gap. -/
structure Adjoins (code : Stack Cell) (address : Nat) (cell : Cell) : Prop where
  within : address ≤ code.size
  size   : (code.poke address cell).size ≤ code.size + 1
  /-- No other cell is filled in. -/
  others : ∀ other, other ≠ address → (code.poke address cell).get? other = code.get? other

theorem adjoins_of_le (h : address ≤ code.size) (cell : Cell) : code.Adjoins address cell := by
  refine ⟨h, ?_, ?_⟩
  · rw [size_poke]
    omega
  · intro other hother
    rw [get?_poke, if_neg hother, if_neg (by omega)]

end Stack

namespace Session

/-- A write to a cell that there is, or right behind the last one, is followed by such writes. -/
theorem adjoins_pokeAll {code : Stack Cell} {address : Nat} (h : address ≤ code.size)
    (before : List Cell) (cell : Cell) :
    (pokeAll code address before).Adjoins (address + before.length) cell := by
  apply Stack.adjoins_of_le
  rw [size_pokeAll h]
  exact Nat.le_max_right _ _

/-! ## What a token compiles -/

variable {s : Session} {t : Token}

/-- The cells that the token has compiled, other than by code that it runs. -/
def compiled (s : Session) (t : Token) : List Cell :=
  if s.phase = .awaitingName ∨ s.pending ≠ .nothing then []
  else
    match s.executed? t with
    | some word =>
      if word.behavior = .primitive .semicolon then [Cell.ofIndex Vocabulary.exitIndex] else []
    | none      => if s.mode = .compile then s.dictionary.cells t.text else []

theorem compiled_of_busy (h : s.phase = .awaitingName ∨ s.pending ≠ .nothing) :
    s.compiled t = [] := if_pos h

theorem compiled_of_executed? {word : Word} (hphase : s.phase ≠ .awaitingName)
    (hpending : s.pending = .nothing) (h : s.executed? t = some word) :
    s.compiled t =
      if word.behavior = .primitive .semicolon then [Cell.ofIndex Vocabulary.exitIndex] else [] := by
  rw [compiled, if_neg (by simp [hphase, hpending]), h]

theorem compiled_of_not_executed (hphase : s.phase ≠ .awaitingName) (hpending : s.pending = .nothing)
    (h : s.executed? t = none) :
    s.compiled t = if s.mode = .compile then s.dictionary.cells t.text else [] := by
  rw [compiled, if_neg (by simp [hphase, hpending]), h]

/-- A token that runs code compiles nothing itself. -/
theorem compiled_of_called? {entry : Nat} (h : s.called? t = some entry) : s.compiled t = [] := by
  obtain ⟨word, hword, hbehavior⟩ := called?_eq_some_iff.mp h
  obtain ⟨hphase, hpending, -⟩ := exists_of_executed? hword
  rw [compiled_of_executed? hphase hpending hword, if_neg (by simp [hbehavior])]

/-- A token that runs no code writes what it compiles, and moves the cursor behind it. -/
theorem written_of_interprets {fuel : Nat} {o : Outcome Unit} (hreturns : s.returns = [])
    (hcalled : s.called? t = none) (h : s.Interprets fuel t o) :
    (Outcome.session o).code = pokeAll s.code s.cursor (s.compiled t) ∧
      (Outcome.session o).cursor = s.cursor + (s.compiled t).length := by
  cases h with
  | name hphase =>
    rw [compiled_of_busy (.inl hphase)]
    exact ⟨rfl, rfl⟩
  | skip _ hpending | literal _ hpending | noLiteral _ hpending =>
    rw [compiled_of_busy (.inr (by simp [hpending]))]
    exact ⟨rfl, rfl⟩
  | push hphase hpending hfind _ hmode =>
    rw [compiled_of_not_executed hphase hpending (executed?_of_find?_eq_none hphase hpending hfind),
      if_neg (by simp [hmode])]
    exact ⟨rfl, rfl⟩
  | compileNumber hphase hpending hfind hvalue hmode =>
    rw [compiled_of_not_executed hphase hpending (executed?_of_find?_eq_none hphase hpending hfind),
      if_pos hmode, Dictionary.cells_of_value? hfind hvalue]
    exact ⟨rfl, rfl⟩
  | unknown hphase hpending hfind hnone =>
    have hcells : s.dictionary.cells t.text = [] := by
      have hvalue : Numeral.value? t.text = none := hnone
      rw [Dictionary.cells, hfind, hvalue]
    rw [compiled_of_not_executed hphase hpending (executed?_of_find?_eq_none hphase hpending hfind),
      hcells, ite_self]
    exact ⟨rfl, rfl⟩
  | compileWord hphase hpending hfind hmode himmediate =>
    have hexecuted := executed?_of_compiles hphase hpending hfind hmode himmediate
    rw [compiled_of_not_executed hphase hpending hexecuted, if_pos hmode,
      Dictionary.cells_of_find? hfind]
    exact ⟨rfl, rfl⟩
  | @perform index word p hphase hpending hfind hruns hp =>
    have hexecuted := executed?_eq hphase hpending hfind hruns
    obtain ⟨pending, hsession⟩ := session_performOnTokens p hreturns
    rw [compiled_of_executed? hphase hpending hexecuted, hp, hsession]
    generalize hleft : Outcome.session (p.perform s) = u
    cases Primitive.leaves_of_perform hleft with
    | semicolon => exact ⟨rfl, rfl⟩
    | nothing hsemi =>
      rw [if_neg (by simpa using hsemi)]
      exact ⟨rfl, rfl⟩
    | computes hdefines =>
      rw [if_neg (by simpa using Primitive.ne_semicolon_of_defines hdefines)]
      exact ⟨rfl, rfl⟩
    | hide | reveal | colon => exact ⟨rfl, rfl⟩
  | run hphase hpending hfind hruns hbehavior =>
    rw [called?_eq hphase hpending hfind hruns hbehavior] at hcalled
    cases hcalled

end Session

/-! ## What a step writes -/

namespace Moment

/-- The address that the step from this moment writes to first, if it writes. -/
def target : Moment → Nat
  | resting s   => s.cursor
  | reading s _ => s.cursor
  | running c _ => c.session.cursor + 1

/-- The cells that the step from this moment writes, one after the other. -/
def cells : Moment → List Cell
  | resting _          => []
  | reading _ []       => []
  | reading s (t :: _) => s.compiled t
  | running c _        =>
    if c.isOver = false ∧ c.session.upcoming? = some (.primitive .semicolon) then
      [Cell.ofIndex Vocabulary.exitIndex]
    else []

variable {m m' : Moment}

/-- Code that is running writes nothing but the `exit` of a `;`. -/
theorem cells_running (c : Call) (ahead : List Token) : (running c ahead).cells = [] ∨
    c.session.upcoming? = some (.primitive .semicolon) ∧
      (running c ahead).cells = [Cell.ofIndex Vocabulary.exitIndex] := by
  rw [cells]
  split
  · next hwrites => exact .inr ⟨hwrites.2, rfl⟩
  · exact .inl rfl

theorem code_after (ahead : List Token) (o : Outcome Unit) :
    (after ahead o).session.code = (Outcome.session o).code := by
  cases o <;> rfl

theorem home_after (ahead : List Token) (o : Outcome Unit) :
    (after ahead o).session.home = (Outcome.session o).home := by
  cases o <;> rfl

theorem cells_of_called? {s : Session} {t : Token} {entry : Nat}
    (h : Session.called? { s with location := some t.location } t = some entry)
    (ahead : List Token) : (reading s (t :: ahead)).cells = [] :=
  Session.compiled_of_called? h

/-- The step writes its cells and nothing else. -/
theorem Next.code (hm : m.Arises) (h : m.Next m') :
    m'.session.code = Session.pokeAll m.session.code m.target m.cells := by
  cases h with
  | line | finish => rfl
  | @word s t ahead fuel o hcalled hinterpret =>
    have hreturns : Session.returns { s with location := some t.location } = [] :=
      hm.returns_eq_nil rfl
    rw [code_after]
    exact (Session.written_of_interprets hreturns hcalled
      (Session.interpret?_eq_some_iff.mp hinterpret)).1
  | call hcalled =>
    rw [cells_of_called? hcalled]
    rfl
  | @turn c ahead hc =>
    show c.turn.session.code = _
    rw [Call.code_turn hc, Frame.code_step]
    simp only [cells, hc, true_and]
    split <;> rfl
  | @back c ahead hc =>
    rw [code_after, Call.session_outcome]
    simp [cells, hc, session, Session.pokeAll]

/-- The cursor that calls put back in the end stays where it is, or behind what a token compiles. -/
theorem Next.home (hm : m.Arises) (h : m.Next m') :
    m'.session.home = m.session.home + if m.isQuiet = true then m.cells.length else 0 := by
  cases h with
  | line | finish => rfl
  | @word s t ahead fuel o hcalled hinterpret =>
    have hreturns : Session.returns { s with location := some t.location } = [] :=
      hm.returns_eq_nil rfl
    have hinterprets := Session.interpret?_eq_some_iff.mp hinterpret
    have hafter := Session.returns_of_interprets hreturns hinterprets
    have hhome : s.home = s.cursor := Session.home_of_returns_eq_nil hreturns
    rw [home_after, Session.home_of_returns_eq_nil hafter]
    show _ = s.home + _
    rw [hhome]
    exact (Session.written_of_interprets hreturns hcalled hinterprets).2
  | @call s t ahead entry hcalled =>
    have hreturns : s.returns = [] := hm.returns_eq_nil rfl
    have hstart : (Call.start { s with location := some t.location } entry).session.home = s.cursor :=
      Session.home_start hreturns entry
    rw [cells_of_called? hcalled]
    exact hstart.trans (Session.home_of_returns_eq_nil hreturns).symm
  | turn hc => exact Call.home_turn hc
  | back hc =>
    rw [home_after, Call.session_outcome]
    rfl

/-! ## Where it is written -/

theorem Arises.home_eq_target (hm : m.Arises) (hquiet : m.isQuiet = true) :
    m.session.home = m.target := by
  rw [Session.home_of_returns_eq_nil (hm.returns_eq_nil hquiet)]
  cases m with
  | resting s | reading s ahead => rfl
  | running c ahead => cases hquiet

/-- A step writes to a cell that there is, or right behind the last one. -/
theorem target_le_of_home_le (hm : m.Arises) (hhome : m.session.home ≤ m.session.code.size)
    (hcells : m.cells ≠ []) : m.target ≤ m.session.code.size := by
  rcases hquiet : m.isQuiet
  · cases m with
    | resting s | reading s ahead => cases hquiet
    | running c ahead =>
      -- The cell of the `;` is there, and its `exit` goes right behind it.
      obtain ⟨hsemi, -⟩ := (cells_running c ahead).resolve_left hcells
      obtain ⟨cell, hcell, -⟩ := Option.bind_eq_some_iff.mp hsemi
      exact Stack.lt_size_of_get? hcell
  · rwa [← hm.home_eq_target hquiet]

theorem Next.size_code (hm : m.Arises) (hhome : m.session.home ≤ m.session.code.size)
    (h : m.Next m') : m'.session.code.size =
      if m.cells = [] then m.session.code.size
      else max m.session.code.size (m.target + m.cells.length) := by
  rw [h.code hm]
  split
  · next hcells => rw [hcells, Session.pokeAll]
  · next hcells => rw [Session.size_pokeAll (target_le_of_home_le hm hhome hcells)]

/-- The cursor that calls put back never leaves code memory. -/
theorem Arises.home_le (hm : m.Arises) : m.session.home ≤ m.session.code.size := by
  refine hm.invariant (I := fun m => m.session.home ≤ m.session.code.size) (Nat.le_refl 0) ?_
  intro m m' hm hhome hnext
  rw [hnext.home hm, hnext.size_code hm hhome]
  by_cases hcells : m.cells = []
  · simpa [hcells] using hhome
  · rw [if_neg hcells]
    split
    · next hquiet =>
      rw [hm.home_eq_target hquiet]
      exact Nat.le_max_right _ _
    · exact Nat.le_trans hhome (Nat.le_max_left _ _)

theorem Arises.target_le (hm : m.Arises) (hcells : m.cells ≠ []) :
    m.target ≤ m.session.code.size := target_le_of_home_le hm hm.home_le hcells

end Moment

/-! ## What later moments keep -/

namespace Session

/-- `t` has kept what `s` has below the cursor that its calls put back, but for an `exit` here and there. -/
structure Precedes (s t : Session) : Prop where
  home : s.home ≤ t.home
  size : s.code.size ≤ t.code.size
  kept : ∀ address < s.home, t.code.get? address = s.code.get? address ∨
    t.code.get? address = some (Cell.ofIndex Vocabulary.exitIndex)

theorem Precedes.refl (s : Session) : s.Precedes s :=
  ⟨Nat.le_refl _, Nat.le_refl _, fun _ _ => .inl rfl⟩

theorem Precedes.trans {s t u : Session} (h : s.Precedes t) (h' : t.Precedes u) : s.Precedes u := by
  refine ⟨Nat.le_trans h.home h'.home, Nat.le_trans h.size h'.size, ?_⟩
  intro address haddress
  rcases h'.kept address (Nat.lt_of_lt_of_le haddress h.home) with hsame | hexit
  · rw [hsame]
    exact h.kept address haddress
  · exact .inr hexit

end Session

namespace Moment

variable {m m' : Moment}

theorem Next.precedes (hm : m.Arises) (h : m.Next m') : m.session.Precedes m'.session := by
  refine ⟨?_, ?_, ?_⟩
  · rw [h.home hm]
    exact Nat.le_add_right _ _
  · rw [h.size_code hm hm.home_le]
    split
    · exact Nat.le_refl _
    · exact Nat.le_max_left _ _
  · intro address haddress
    rw [h.code hm]
    by_cases hcells : m.cells = []
    · rw [hcells]
      exact .inl rfl
    · have htarget := hm.target_le hcells
      rcases hquiet : m.isQuiet
      · cases m with
        | resting s | reading s ahead => cases hquiet
        | running c ahead =>
          rw [((cells_running c ahead).resolve_left hcells).2]
          by_cases hother : address = (running c ahead).target
          · rw [hother]
            exact .inr (by rw [Session.pokeAll, Session.pokeAll, Stack.get?_poke, if_pos rfl])
          · exact .inl ((Stack.adjoins_of_le htarget _).others address hother)
      · rw [hm.home_eq_target hquiet] at haddress
        exact .inl (Session.get?_pokeAll_of_lt htarget haddress m.cells)

theorem Arises.precedes (hm : m.Arises) (h : m.Leads m') : m.session.Precedes m'.session :=
  hm.relation (R := fun m m' => m.session.Precedes m'.session) (fun m => .refl m.session)
    (fun _ _ _ => Session.Precedes.trans) (fun _ _ hm hnext => hnext.precedes hm) h

/-- Cells are written to addresses that code memory has, or to the first one that it does not have yet, so
no gap is ever filled in. Code memory never shrinks. Where no code is running, the cursor is in code memory
or at its end and never goes back, and later moments have kept what is below it but for an `exit` here and
there. -/
theorem Arises.code_without_gap (hm : m.Arises) :
    (∀ before cell after, m.cells = before ++ cell :: after →
      (Session.pokeAll m.session.code m.target before).Adjoins (m.target + before.length) cell) ∧
    (∀ m', m.Next m' → m'.session.code = Session.pokeAll m.session.code m.target m.cells) ∧
    (m.isQuiet = true → m.session.cursor ≤ m.session.code.size) ∧
    ∀ m', m.Leads m' → m.session.code.size ≤ m'.session.code.size ∧
      (m.isQuiet = true →
        (m'.isQuiet = true → m.session.cursor ≤ m'.session.cursor) ∧
        ∀ address < m.session.cursor, m'.session.code.get? address = m.session.code.get? address ∨
          m'.session.code.get? address = some (Cell.ofIndex Vocabulary.exitIndex)) := by
  have hhome : m.isQuiet = true → m.session.home = m.session.cursor :=
    fun hquiet => Session.home_of_returns_eq_nil (hm.returns_eq_nil hquiet)
  refine ⟨?_, ?_, ?_, ?_⟩
  · intro before cell after hcells
    have hne : m.cells ≠ [] := by simp [hcells]
    exact Session.adjoins_pokeAll (hm.target_le hne) before cell
  · intro m' hnext
    exact hnext.code hm
  · intro hquiet
    rw [← hhome hquiet]
    exact hm.home_le
  · intro m' hleads
    have hprecedes := hm.precedes hleads
    refine ⟨hprecedes.size, ?_⟩
    intro hquiet
    rw [← hhome hquiet]
    refine ⟨?_, hprecedes.kept⟩
    intro hquiet'
    rw [← Session.home_of_returns_eq_nil ((hm.leads hleads).returns_eq_nil hquiet')]
    exact hprecedes.home

/-- The call that the line `a` begins in `extending`. Its second cell is a `;`, and the last one of code
memory. -/
def strayCall : Call :=
  Call.start { Session.extending.startLine with location := some ⟨Session.source, 2, 1⟩ } 0

/-- The call is about to write its `exit` behind all code. -/
def stray : Moment := running strayCall.turn []

theorem stray_arises : (resting Session.extending).Arises ∧ (resting Session.extending).Leads stray := by
  have hprocess : Session.process? 0 .initial ": a branch 8 [ reveal" = some ({}, Session.extending) := by
    decide +kernel
  have harises := arises_resting_iff.mpr (.line .initial hprocess)
  have htokens : Token.ofLine Session.source Session.extending.startLine.lines "a" =
      [⟨"a", ⟨Session.source, 2, 1⟩⟩] := by decide +kernel
  have hline := (Next.line Session.extending "a").leads
  rw [htokens] at hline
  have hcall : (reading Session.extending.startLine [⟨"a", ⟨Session.source, 2, 1⟩⟩]).Leads
      (running strayCall []) := (Next.call (by decide +kernel)).leads
  exact ⟨harises, (hline.trans hcall).trans (Next.turn (by decide)).leads⟩

theorem stray_code_without_gap : stray.Arises ∧ stray.session.code.Adjoins 3 0 ∧
    (∀ m', stray.Next m' → m'.session.code.toList = [15, 2, 8, 0]) ∧
    (∀ m', stray.Leads m' → 3 ≤ m'.session.code.size) ∧
    (resting Session.extending).Arises ∧
    ∀ m', (resting Session.extending).Leads m' → m'.isQuiet = true → 3 ≤ m'.session.cursor := by
  obtain ⟨hresting, hleads⟩ := stray_arises
  have hstray := hresting.leads hleads
  obtain ⟨hadjoins, hnext, -, hlater⟩ := hstray.code_without_gap
  have hcells : stray.cells = [0] := by decide +kernel
  refine ⟨hstray, hadjoins [] 0 [] hcells, ?_, ?_, hresting, ?_⟩
  · intro m' hm'
    rw [hnext m' hm', hcells]
    decide +kernel
  · intro m' hm'
    exact (hlater m' hm').1
  · intro m' hm' hquiet
    exact ((hresting.code_without_gap.2.2.2 m' hm').2 rfl).1 hquiet

end Moment

end MiniForth
