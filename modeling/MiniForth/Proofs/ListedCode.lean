import MiniForth.Proofs.Listings
import MiniForth.Proofs.Performing
import MiniForth.Proofs.Writes

/-!
# Listings of the code that runs

A listing takes the cells in a row and tells operands from words by the cell in front. A frame takes the
cells that its steps lead to. As long as no step diverts, the two go over the cells in the same way: where
the frame goes on, the listing stands, in front of a cell that is no operand.

* `StandsAt.succ`, `StandsAt.operand`: a listing of code memory, past one cell or past `lit` and its operand.
* `standsAt_next`, `standsAt_call`: the addresses where a frame goes on after a step.
* `Stays.standsAt`: all addresses where the frame goes on in the course of a call.
* `listing_of_frame`: what the frame does with a cell is what the listing calls it.
-/

namespace MiniForth

/-! ## Where a frame stands -/

/-- Does the primitive lead to other cells than the next ones, or change what cells mean? -/
def Primitive.diverts : Primitive → Bool
  | branch | zeroBranch | colon | semicolon => true
  | _                                       => false

theorem Primitive.labels_perform {p : Primitive} (hp : p.diverts = false) (s : Session) :
    (Outcome.session (p.perform s)).dictionary.labels = s.dictionary.labels := by
  generalize h : Outcome.session (p.perform s) = t
  cases leaves_of_perform h with
  | nothing | computes => rfl
  | hide => exact s.labels_hideLast
  | reveal => exact s.labels_revealLast
  | colon | semicolon => cases hp

namespace Session

/-- The listing of code memory from an address on. -/
def listing (s : Session) (entry : Nat) : List String :=
  Listing.lines s.dictionary (s.code.toList.drop entry)

/-- What is dispatched next does not divert. -/
def Proceeds : Session → Prop := DispatchesOnly fun _ p => p.diverts = false

instance : DecidablePred Proceeds := inferInstanceAs (DecidablePred (DispatchesOnly _))

/-- The two sessions have the same listings. -/
structure ListsAlike (s t : Session) : Prop where
  code   : t.code = s.code
  labels : t.dictionary.labels = s.dictionary.labels

/-- The listing from `entry` on stands in front of the cell at `address`. -/
structure StandsAt (s : Session) (entry address : Nat) : Prop where
  le     : entry ≤ address
  stands : Listing.StandsAt s.dictionary (s.code.toList.drop entry) (address - entry)

variable {s t x : Session} {entry address : Nat}

theorem ListsAlike.refl (s : Session) : s.ListsAlike s := ⟨rfl, rfl⟩

theorem ListsAlike.trans (h : s.ListsAlike t) (h' : t.ListsAlike x) : s.ListsAlike x :=
  ⟨h'.code.trans h.code, h'.labels.trans h.labels⟩

theorem ListsAlike.listing (h : s.ListsAlike t) (entry : Nat) : t.listing entry = s.listing entry := by
  rw [Session.listing, h.code]
  exact Listing.lines_of_labels h.labels _

theorem standsAt_self (s : Session) (entry : Nat) : s.StandsAt entry entry := by
  refine ⟨Nat.le_refl entry, ?_⟩
  rw [Nat.sub_self]
  exact Listing.standsAt_zero _ _

theorem getElem?_drop_code (s : Session) (hle : entry ≤ address) :
    (s.code.toList.drop entry)[address - entry]? = s.code.get? address := by
  rw [List.getElem?_drop, Nat.add_sub_cancel' hle, Stack.getElem?_toList]

/-- In the listing from `entry` on, the cell at `address` has its line, with this role. -/
structure Lists (s : Session) (entry address : Nat) (cell : Cell) (role : Listing.Role) : Prop where
  le     : entry ≤ address
  code   : s.code.get? address = some cell
  listed : (s.listing entry)[address - entry]? = some (Listing.line (address - entry) cell role)

section

variable {cell value : Cell} {word : Word}

/-- The line says what the word is called now. -/
theorem StandsAt.lists (h : s.StandsAt entry address) (hsame : s.ListsAlike x)
    (hcell : x.code.get? address = some cell) :
    s.Lists entry address cell (.ofCell x.dictionary cell) := by
  rw [hsame.code] at hcell
  refine ⟨h.le, hcell, ?_⟩
  rw [← getElem?_drop_code s h.le] at hcell
  rw [listing, Listing.getElem?_lines hcell (h.stands.role hcell), Listing.line, Listing.line,
    (Listing.ofCell_of_labels hsame.labels cell).1]

/-- Behind a word that does not take it for an operand, the listing stands in front of the next cell. -/
theorem StandsAt.succ (h : s.StandsAt entry address) (hsame : s.ListsAlike x)
    (hcell : x.code.get? address = some cell) (hword : x.dictionary.resolve? cell = some word)
    (hliteral : word.behavior ≠ .primitive .literal) : s.StandsAt entry (address + 1) := by
  have htakes : (Listing.Role.ofCell s.dictionary cell).takesOperand = false := by
    rw [Listing.takesOperand_of_labels hsame.labels hword, decide_eq_false hliteral]
  rw [hsame.code, ← getElem?_drop_code s h.le] at hcell
  refine ⟨Nat.le_succ_of_le h.le, ?_⟩
  rw [Nat.succ_sub h.le]
  exact h.stands.next hcell htakes

/-- Behind `lit` the next cell is listed as its operand, and the listing stands in front of the one after
it. -/
theorem StandsAt.operand (h : s.StandsAt entry address) (hsame : s.ListsAlike x)
    (hcell : x.code.get? address = some cell) (hword : x.dictionary.resolve? cell = some word)
    (hliteral : word.behavior = .primitive .literal) (hvalue : x.code.get? (address + 1) = some value) :
    s.Lists entry (address + 1) value .operand ∧ s.StandsAt entry (address + 2) := by
  have htakes : (Listing.Role.ofCell s.dictionary cell).takesOperand = true := by
    rw [Listing.takesOperand_of_labels hsame.labels hword, decide_eq_true hliteral]
  have hle : entry ≤ address + 1 := Nat.le_succ_of_le h.le
  have hsub : address + 1 - entry = address - entry + 1 := Nat.succ_sub h.le
  rw [hsame.code, ← getElem?_drop_code s h.le] at hcell
  rw [hsame.code] at hvalue
  have hlisted := hvalue
  rw [← getElem?_drop_code s hle, hsub] at hlisted
  refine ⟨⟨hle, hvalue, ?_⟩, Nat.le_succ_of_le hle, ?_⟩
  · rw [listing, hsub]
    exact Listing.getElem?_lines hlisted (h.stands.operand hcell htakes hlisted)
  · rw [Nat.succ_sub hle, hsub]
    exact h.stands.next_operand hcell htakes hlisted

end

theorem exists_of_upcoming? {behavior : Behavior} (h : s.upcoming? = some behavior) :
    ∃ cell word, s.code.get? s.cursor = some cell ∧ s.dictionary.resolve? cell = some word ∧
      word.behavior = behavior := by
  obtain ⟨cell, hcell, h⟩ := Option.bind_eq_some_iff.mp h
  obtain ⟨word, hword, hbehavior⟩ := Option.map_eq_some_iff.mp h
  exact ⟨cell, word, hcell, hword, hbehavior⟩

end Session

namespace Frame

open MiniForth.Session

variable {s t x : Session} {entry : Nat}

theorem step_listsAlike (hs : s.Proceeds) : s.ListsAlike (step s).session where
  code := by
    rw [code_step, if_neg]
    intro hsemi
    cases hs _ hsemi
  labels := by
    apply step_session (P := fun t => t.dictionary.labels = s.dictionary.labels) rfl rfl
    intro p hup
    obtain ⟨stack, cursor, hsession⟩ := session_perform s.skipCell p
    rw [hsession]
    exact p.labels_perform (hs p hup) s.skipCell

/-- Only `lit` moves the cursor further. -/
theorem cursor_of_perform {p : Primitive} (hp : p.diverts = false) (hliteral : p ≠ .literal)
    (h : perform s p = .next t) : t.cursor = s.cursor := by
  by_cases hsteers : p.steers = false
  · have hsemi : p ≠ .semicolon := by
      rintro rfl
      cases hp
    rw [perform_of_not_steers s hsteers hsemi] at h
    split at h <;> cases h
    rfl
  · cases p
    case exit => cases h
    case literal => exact absurd rfl hliteral
    case branch | zeroBranch => cases hp
    all_goals exact absurd rfl hsteers

/-- Where the frame goes on with the next step, the listing stands too. -/
theorem standsAt_next (h : s.StandsAt entry x.cursor) (hsame : s.ListsAlike x) (hx : x.Proceeds)
    (hstep : step x = .next t) : s.StandsAt entry t.cursor := by
  rcases hup : x.upcoming? with _ | ⟨p⟩ | ⟨callee⟩
  · obtain ⟨f, u, hstop, -⟩ := step_of_upcoming?_eq_none hup
    rw [hstop] at hstep
    cases hstep
  · obtain ⟨cell, word, hcell, hword, hbehavior⟩ := exists_of_upcoming? hup
    rw [step_of_primitive hup] at hstep
    by_cases hliteral : p = .literal
    · subst hliteral
      rcases hvalue : x.code.get? (x.cursor + 1) with _ | value
      · rw [perform, show x.skipCell.code.get? x.skipCell.cursor = none from hvalue] at hstep
        cases hstep
      · rw [perform, show x.skipCell.code.get? x.skipCell.cursor = some value from hvalue] at hstep
        cases hstep
        exact (h.operand hsame hcell hword hbehavior hvalue).2
    · rw [cursor_of_perform (hx p hup) hliteral hstep]
      refine h.succ hsame hcell hword ?_
      rw [hbehavior]
      simpa using hliteral
  · rw [step_of_compiled hup] at hstep
    cases hstep

/-- A callee is entered by the word under the cursor. -/
theorem upcoming?_of_call {callee : Nat} (h : step s = .call t callee) :
    s.upcoming? = some (.compiled callee) ∧ t.cursor = s.cursor + 1 := by
  rcases hup : s.upcoming? with _ | ⟨p⟩ | ⟨entry⟩
  · obtain ⟨f, u, hstop, -⟩ := step_of_upcoming?_eq_none hup
    rw [hstop] at h
    cases h
  · rw [step_of_primitive hup] at h
    revert h
    fun_cases perform s.skipCell p <;> simp
  · rw [step_of_compiled hup] at h
    cases h
    exact ⟨rfl, rfl⟩

/-- Where the frame goes on behind a callee, the listing stands too. -/
theorem standsAt_call {callee : Nat} (h : s.StandsAt entry x.cursor) (hsame : s.ListsAlike x)
    (hstep : step x = .call t callee) : s.StandsAt entry t.cursor := by
  obtain ⟨hup, hcursor⟩ := upcoming?_of_call hstep
  obtain ⟨cell, word, hcell, hword, hbehavior⟩ := exists_of_upcoming? hup
  rw [hcursor]
  refine h.succ hsame hcell hword ?_
  rw [hbehavior]
  simp

end Frame

/-! ## Frames of a call -/

/-- Where execution goes on: under the cursor, and then at the return addresses. -/
def Session.control (s : Session) : List Nat := s.cursor :: s.returns

namespace Call

open MiniForth.Session MiniForth.Frame

/-- What a turn does to the addresses at which execution goes on. -/
theorem control_turn {x : Call} (hx : x.isOver = false) :
    match step x.session with
    | .next t                => x.turn.session.control = t.cursor :: x.session.returns
    | .call t entry          => x.turn.session.control = entry :: t.cursor :: x.session.returns
    | .stop (.returned _) _  => x.turn.session.control = x.session.returns
    | .stop (.aborted _) _   => x.turn.session.returns = [] := by
  obtain ⟨resume, outer, hframe⟩ := frame_of_running hx
  have hreturns : x.session.returns = resume :: outer := by rw [hframe]; rfl
  have hturn := turn_eq x.session x.failure resume outer
  rw [← hframe] at hturn
  rw [show x.turn = _ from hturn, hreturns]
  rcases step x.session with t | ⟨t, entry⟩ | ⟨⟨fault⟩ | f, t⟩ <;> rfl

/-- Turns that do not divert lead from `c` to a call. All of them are taken while the return addresses
`base` are still below the others. -/
inductive Stays (base : List Nat) (c : Call) : Call → Prop where
  | refl : Stays base c c
  | turn {d : Call} : Stays base c d → d.isOver = false → base <:+ d.session.returns →
      d.session.Proceeds → Stays base c d.turn

variable {base : List Nat} {s : Session} {c d : Call}

theorem listsAlike_turn (hd : d.isOver = false) (hproceeds : d.session.Proceeds) :
    d.session.ListsAlike d.turn.session := by
  obtain ⟨cursor, returns, hturn⟩ := session_turn hd
  have hstep := step_listsAlike hproceeds
  rw [hturn]
  exact ⟨hstep.code, hstep.labels⟩

/-- The listings stay what they are. -/
theorem Stays.listsAlike (h : Stays base c d) : c.session.ListsAlike d.session := by
  induction h with
  | refl => exact .refl _
  | turn _ hd _ hproceeds ih => exact ih.trans (listsAlike_turn hd hproceeds)

/-- The frame of `c` goes on where the listing from its entry on stands. -/
theorem Stays.standsAt (hsame : s.ListsAlike c.session) (hbase : base ≠ []) (hc : c.session.returns = base)
    (h : Stays base c d) (inner : List Nat) {address : Nat}
    (hcontrol : d.session.control = inner ++ address :: base) :
    s.StandsAt c.session.cursor address := by
  induction h generalizing inner address with
  | refl =>
    rw [Session.control, hc] at hcontrol
    rcases inner with _ | ⟨a, inner⟩
    · obtain ⟨rfl, -⟩ := List.cons.inj hcontrol
      exact s.standsAt_self _
    · have hlength := congrArg List.length (List.cons.inj hcontrol).2
      simp at hlength
      omega
  | @turn d hstays hd hsuffix hproceeds ih =>
    have hsame' := hsame.trans hstays.listsAlike
    have hhere : d.session.returns = base → s.StandsAt c.session.cursor d.session.cursor := by
      intro hreturns
      exact ih [] (congrArg (d.session.cursor :: ·) hreturns)
    have hbehind : ∀ {inner address}, d.session.returns = inner ++ address :: base →
        s.StandsAt c.session.cursor address := by
      intro inner address hreturns
      exact ih (d.session.cursor :: inner) (congrArg (d.session.cursor :: ·) hreturns)
    have hturn := control_turn hd
    rcases hstep : step d.session with t | ⟨t, entry⟩ | ⟨⟨fault⟩ | f, t⟩
    all_goals simp only [hstep] at hturn
    · rw [hturn] at hcontrol
      rcases inner with _ | ⟨a, inner⟩
      · obtain ⟨rfl, hreturns⟩ := List.cons.inj hcontrol
        exact standsAt_next (hhere hreturns) hsame' hproceeds hstep
      · exact hbehind (List.cons.inj hcontrol).2
    · rw [hturn] at hcontrol
      rcases inner with _ | ⟨a, _ | ⟨b, inner⟩⟩
      · -- Below the new frame there is the one that it was called from.
        obtain ⟨-, rfl⟩ := List.cons.inj hcontrol
        have hlength := hsuffix.length_le
        simp at hlength
      · obtain ⟨-, hcontrol⟩ := List.cons.inj hcontrol
        obtain ⟨rfl, hreturns⟩ := List.cons.inj hcontrol
        exact standsAt_call (hhere hreturns) hsame' hstep
      · obtain ⟨-, hcontrol⟩ := List.cons.inj hcontrol
        exact hbehind (List.cons.inj hcontrol).2
    · exact hbehind (hturn.symm.trans hcontrol)
    · -- When all calls are given up, nothing is left of `base`.
      rw [Session.control, hturn] at hcontrol
      rcases inner with _ | ⟨a, inner⟩
      · exact absurd (List.cons.inj hcontrol).2.symm hbase
      · simp at hcontrol

/-- A listing agrees with the frames that begin at its first cell, as long as nothing diverts. It has one
line for each cell, numbered in order, and says of each cell what the frame does with it: the cell is
carried out as the word that the listing names, or it is pushed as the operand of the cell in front, or it
is no word. -/
theorem listing_of_frame {first entry : Nat} (hrun : Stays [] (Call.start s first) c)
    (hc : c.isOver = false) (hentry : c.session.cursor = entry) (hframe : Stays c.session.returns c d)
    (hreturns : d.session.returns = c.session.returns) :
    (s.listing entry).length = s.code.size - entry ∧
    (∀ i cell, s.code.get? (entry + i) = some cell →
      ∃ role, (s.listing entry)[i]? = some (Listing.line i cell role)) ∧
    ((∀ word ∈ s.dictionary.words, '\n' ∉ word.name.toList) →
      (Listing.text s.dictionary (s.code.toList.drop entry)).toList.splitOn '\n' =
        (s.listing entry).map String.toList ++ [[]]) ∧
    d.session.listing entry = s.listing entry ∧
    (∀ cell word, d.session.code.get? d.session.cursor = some cell →
      d.session.dictionary.resolve? cell = some word →
      s.Lists entry d.session.cursor cell (.reference word)) ∧
    (∀ value, d.session.upcoming? = some (.primitive .literal) →
      d.session.code.get? (d.session.cursor + 1) = some value →
      dispatch d.session = .ok () { d.session.push value with cursor := d.session.cursor + 2 } ∧
        s.Lists entry (d.session.cursor + 1) value .operand) ∧
    ∀ cell, d.session.code.get? d.session.cursor = some cell →
      d.session.dictionary.resolve? cell = none →
      dispatch d.session =
          .error (.ofCause d.session.location (.notAWord cell d.session.cursor)) d.session.skipCell ∧
        s.Lists entry d.session.cursor cell .unknown := by
  have hrunning : c.session.returns ≠ [] := by
    intro hnil
    rw [isOver, hnil] at hc
    cases hc
  have hsame : s.ListsAlike c.session := ⟨hrun.listsAlike.code, hrun.listsAlike.labels⟩
  have hsame' : s.ListsAlike d.session := hsame.trans hframe.listsAlike
  have hstands : s.StandsAt entry d.session.cursor := by
    rw [← hentry]
    exact hframe.standsAt hsame hrunning rfl [] (congrArg (d.session.cursor :: ·) hreturns)
  refine ⟨?_, ?_, fun hnames => Listing.splitOn_text hnames _, hsame'.listing entry, ?_, ?_, ?_⟩
  · rw [listing, Listing.length_lines, List.length_drop, Stack.length_toList]
  · intro i cell hcell
    rw [← Stack.getElem?_toList, ← List.getElem?_drop] at hcell
    exact Listing.exists_role s.dictionary hcell
  · intro cell word hcell hword
    rw [← Listing.ofCell_of_resolve? hword]
    exact hstands.lists hsame' hcell
  · intro value hup hvalue
    obtain ⟨cell, word, hcell, hword, hbehavior⟩ := exists_of_upcoming? hup
    refine ⟨?_, (hstands.operand hsame' hcell hword hbehavior hvalue).1⟩
    have hd : d.isOver = false := by
      rw [isOver, hreturns]
      exact hc
    obtain ⟨resume, outer, hreturns'⟩ := frame_of_running hd
    have hdispatch := dispatch_withReturns d.session resume outer
    rw [← hreturns', step_of_literal hup hvalue] at hdispatch
    rw [hdispatch, Step.outcome, hreturns']
    rfl
  · intro cell hcell hnone
    rw [← Listing.ofCell_of_resolve?_eq_none hnone]
    refine ⟨?_, hstands.lists hsame' hcell⟩
    rw [dispatch_eq, hcell]
    simp only [hnone, Option.map_none]

/-- A session with a word without a name, whose literal is the index of `lit`, and behind it the call of
that word and a cell that is no word. -/
def callingUnnamed : Session :=
  { Session.initial with
    code       := ⟨#[2, 2, 11, 0, 17, 99]⟩
    cursor     := 6
    dictionary := Vocabulary.dictionary.add { name := "", behavior := .compiled 0 } }

/-- The frame of the call meets the cell that is no word when the frame of the word has ended. -/
theorem callingUnnamed_listing :
    callingUnnamed.listing 4 = ["   0:     17  <unnamed>", "   1:     99  ???"] ∧
      callingUnnamed.Lists 4 5 99 .unknown ∧ callingUnnamed.Lists 0 1 2 .operand := by
  have hcalled : (start callingUnnamed 4).isOver = false := by decide +kernel
  have hentered : (start callingUnnamed 4).turn.isOver = false := by decide +kernel
  have hfirst (base : List Nat) (hbase : base <:+ (start callingUnnamed 4).session.returns) :
      Stays base (start callingUnnamed 4) (start callingUnnamed 4).turn :=
    .turn .refl hcalled hbase (by decide +kernel)
  have hbehind : Stays (start callingUnnamed 4).session.returns (start callingUnnamed 4)
      (start callingUnnamed 4).turn.turn.turn.turn :=
    .turn (.turn (.turn (hfirst _ List.suffix_rfl) hentered (by decide +kernel) (by decide +kernel))
      (by decide +kernel) (by decide +kernel) (by decide +kernel))
      (by decide +kernel) (by decide +kernel) (by decide +kernel)
  have hunknown := (listing_of_frame .refl hcalled rfl hbehind (by decide +kernel)).2.2.2.2.2.2
  have hoperand := (listing_of_frame (hfirst [] List.nil_suffix) hentered rfl .refl rfl).2.2.2.2.2.1
  have hcursor : (start callingUnnamed 4).turn.turn.turn.turn.session.cursor = 5 := by decide +kernel
  have hcursor' : (start callingUnnamed 4).turn.session.cursor = 0 := by decide +kernel
  rw [hcursor] at hunknown
  rw [hcursor'] at hoperand
  exact ⟨by decide +kernel, (hunknown 99 (by decide +kernel) (by decide +kernel)).2,
    (hoperand 2 (by decide +kernel) (by decide +kernel)).2⟩

end Call

end MiniForth
