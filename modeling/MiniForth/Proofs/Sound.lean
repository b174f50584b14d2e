import MiniForth.Proofs.Growth

/-!
# Sound code

Code can be faulty: a branch may land on the operand of a number, a definition may be without its
end, and a call may lead back to where it came from. `Session.Sound` certifies that code from an
address on is free of this. The certificate of a call holds that of the code it calls, so it is also a
bound on how deep calls go.

* `Sound.mono`: code that is sound stays so when code and dictionary grow.
* `Sound.append`: what leads to sound code is sound.
* `Sound.ends`: sound code comes to an end, meets no memory fault, and leaves definitions alone.
-/

namespace MiniForth

namespace Session

variable {s t : Session} {till : Option Nat} {address : Nat}

/-- The code at an address comes to an `exit`, or, where `till` allows that, it leads to that address.
On the way there are numbers, primitives that only compute, and calls of code that comes to an
`exit`. -/
inductive Sound (s : Session) : Option Nat → Nat → Prop where
  | here (address : Nat) : Sound s (some address) address
  | exit {till : Option Nat} {address : Nat} :
      s.behaviorAt? address = some (.primitive .exit) → Sound s till address
  | number {till : Option Nat} {address : Nat} {value : Cell} :
      s.behaviorAt? address = some (.primitive .literal) → s.code.get? (address + 1) = some value →
      Sound s till (address + 2) → Sound s till address
  | compute {till : Option Nat} {address : Nat} {p : Primitive} :
      s.behaviorAt? address = some (.primitive p) → p.defines = false → p.steers = false →
      Sound s till (address + 1) → Sound s till address
  | call {till : Option Nat} {address entry : Nat} :
      s.behaviorAt? address = some (.compiled entry) → Sound s none entry →
      Sound s till (address + 1) → Sound s till address

/-! ## Growing code -/

theorem get?_of_isPrefix {code code' : Stack Cell} (h : code.toList <+: code'.toList) {address : Nat}
    {cell : Cell} (hcell : code.get? address = some cell) : code'.get? address = some cell := by
  rw [← Stack.getElem?_toList] at hcell ⊢
  obtain ⟨more, hmore⟩ := h
  have hlt : address < code.toList.length := (List.getElem?_eq_some_iff.mp hcell).1
  rw [← hmore, List.getElem?_append_left hlt, hcell]

theorem isPrefix_of_eq {code code' : Stack Cell} (h : code' = code) :
    code.toList <+: code'.toList := by
  subst h
  exact List.prefix_refl _

theorem behaviorAt?_of_isPrefix (hcode : s.code.toList <+: t.code.toList)
    (hcarries : s.dictionary.Carries t.dictionary) {behavior : Behavior}
    (h : s.behaviorAt? address = some behavior) : t.behaviorAt? address = some behavior := by
  obtain ⟨cell, hcell, hword⟩ := Option.bind_eq_some_iff.mp h
  rw [behaviorAt?, get?_of_isPrefix hcode hcell, Option.bind_some]
  exact hcarries.resolve? hword

theorem Sound.mono (h : s.Sound till address) (hcode : s.code.toList <+: t.code.toList)
    (hcarries : s.dictionary.Carries t.dictionary) : t.Sound till address := by
  induction h with
  | here address => exact .here address
  | exit hat => exact .exit (behaviorAt?_of_isPrefix hcode hcarries hat)
  | number hat hvalue _ ih =>
    exact .number (behaviorAt?_of_isPrefix hcode hcarries hat) (get?_of_isPrefix hcode hvalue) ih
  | compute hat hdefines hsteers _ ih =>
    exact .compute (behaviorAt?_of_isPrefix hcode hcarries hat) hdefines hsteers ih
  | call hat _ _ ih₁ ih₂ => exact .call (behaviorAt?_of_isPrefix hcode hcarries hat) ih₁ ih₂

/-- What leads to sound code is sound. -/
theorem Sound.append {middle : Nat} (h : s.Sound (some middle) address)
    (hrest : s.Sound till middle) : s.Sound till address := by
  generalize hmiddle : some middle = till' at h
  induction h with
  | here =>
    cases hmiddle
    exact hrest
  | exit hat => exact .exit hat
  | number hat hvalue _ ih => exact .number hat hvalue (ih hmiddle)
  | compute hat hdefines hsteers _ ih => exact .compute hat hdefines hsteers (ih hmiddle)
  -- The code that is called leads nowhere, so it is sound as it is.
  | call hat hcallee _ _ ih => exact .call hat hcallee (ih hmiddle)

end Session

/-! ## Running sound code -/

/-- Nothing was reported, or something that is no memory fault. -/
def Outcome.Faultless {α : Type} : Outcome α → Prop
  | .ok _ _    => True
  | .error f _ => f.kind ≠ .memoryFault

/-- The frame met no memory fault. -/
def Ending.Faultless : Ending → Prop
  | returned fault  => fault = none
  | aborted failure => failure.kind ≠ .memoryFault

theorem Ending.Faultless.outcome {ending : Ending} (h : ending.Faultless) (s : Session) :
    (ending.outcome s).Faultless := by
  rcases ending with ⟨_ | f⟩ | f
  · trivial
  · cases h
  · exact h

namespace Session

/-- Agreement on what is compiled: code memory, the dictionary, and how far a definition has got. -/
structure SameProgram (s t : Session) : Prop where
  code       : t.code = s.code
  dictionary : t.dictionary = s.dictionary
  phase      : t.phase = s.phase

variable {s t u : Session}

theorem SameProgram.refl (s : Session) : s.SameProgram s := ⟨rfl, rfl, rfl⟩

theorem SameProgram.trans (h : s.SameProgram t) (h' : t.SameProgram u) : s.SameProgram u where
  code       := h'.code.trans h.code
  dictionary := h'.dictionary.trans h.dictionary
  phase      := h'.phase.trans h.phase

theorem SameProgram.behaviorAt? (h : s.SameProgram t) (address : Nat) :
    t.behaviorAt? address = s.behaviorAt? address := by
  rw [Session.behaviorAt?, h.code, h.dictionary, Session.behaviorAt?]

open MiniForth.Frame

/-- Sound code comes to its end and meets no memory fault, whatever is on the parameter stack. -/
theorem Sound.ends {address : Nat} (h : s.Sound none address) (hst : s.SameProgram t)
    (hcursor : t.cursor = address) :
    ∃ ending u, Ends t ending u ∧ t.SameProgram u ∧ ending.Faultless := by
  -- The certificate of a call holds that of its callee, so the induction reaches into calls too.
  generalize htill : none = till at h
  induction h generalizing t with
  | here => cases htill
  | @exit till address hat =>
    have hup : t.upcoming? = some (.primitive .exit) := by
      rw [upcoming?, hcursor, hst.behaviorAt?, hat]
    refine ⟨.returned none, t.skipCell, .stop ?_, ⟨rfl, rfl, rfl⟩, rfl⟩
    rw [step_of_primitive hup]
    rfl
  | @number till address value hat hvalue _ ih =>
    have hup : t.upcoming? = some (.primitive .literal) := by
      rw [upcoming?, hcursor, hst.behaviorAt?, hat]
    have hstep : step t = .next (t.skipCell.push value).skipCell := by
      apply step_of_literal hup
      rw [hst.code, hcursor, hvalue]
    obtain ⟨ending, u, hends, hsame, hfaultless⟩ :=
      @ih (t.skipCell.push value).skipCell ⟨hst.code, hst.dictionary, hst.phase⟩
        (congrArg (· + 2) hcursor) htill
    exact ⟨ending, u, .next hstep hends, ⟨hsame.code, hsame.dictionary, hsame.phase⟩, hfaultless⟩
  | @compute till address p hat hdefines hsteers _ ih =>
    have hup : t.upcoming? = some (.primitive p) := by
      rw [upcoming?, hcursor, hst.behaviorAt?, hat]
    have hstep := step_of_primitive hup
    rw [perform_of_computes t.skipCell hdefines hsteers] at hstep
    split at hstep
    · next e _ =>
      obtain ⟨ending, u, hends, hsame, hfaultless⟩ :=
        @ih (e.apply t.skipCell) ⟨hst.code, hst.dictionary, hst.phase⟩
          (congrArg (· + 1) hcursor) htill
      exact ⟨ending, u, .next hstep hends, ⟨hsame.code, hsame.dictionary, hsame.phase⟩, hfaultless⟩
    · exact ⟨_, _, .stop hstep, ⟨rfl, rfl, rfl⟩, kind_complaint p _⟩
  | @call till address entry hat _ _ ih₁ ih₂ =>
    have hup : t.upcoming? = some (.compiled entry) := by
      rw [upcoming?, hcursor, hst.behaviorAt?, hat]
    have hstep := step_of_compiled hup
    obtain ⟨ending, u, hcallee, hsame, hfaultless⟩ :=
      @ih₁ { t.skipCell with cursor := entry } ⟨hst.code, hst.dictionary, hst.phase⟩ rfl rfl
    have htu : t.SameProgram u := ⟨hsame.code, hsame.dictionary, hsame.phase⟩
    rcases ending with fault | f
    · -- The callee has changed nothing that the rest of the certificate speaks of.
      have hsu := hst.trans htu
      obtain ⟨ending, v, hrest, hsame', hfaultless'⟩ :=
        @ih₂ { u with cursor := t.skipCell.cursor } ⟨hsu.code, hsu.dictionary, hsu.phase⟩
          (congrArg (· + 1) hcursor) htill
      have huv : u.SameProgram v := ⟨hsame'.code, hsame'.dictionary, hsame'.phase⟩
      refine ⟨ending.after fault, v, .call hstep hcallee hrest, htu.trans huv, ?_⟩
      have hfault : fault = none := hfaultless
      subst hfault
      cases ending with
      | returned later => exact hfaultless'
      | aborted g => exact hfaultless'
    · exact ⟨.aborted f, u, .abort hstep hcallee, htu, hfaultless⟩

/-- A call of sound code comes to its end, and it leaves alone what is compiled. -/
theorem Sound.run? {entry : Nat} (h : s.Sound none entry) (hs : s.returns = []) :
    ∃ fuel o, s.run? fuel entry = some o ∧ s.SameProgram (Outcome.session o) ∧
      (Outcome.session o).cursor = s.cursor ∧ o.Faultless := by
  obtain ⟨ending, t, hends, hsame, hfaultless⟩ :=
    h.ends (t := { s with cursor := entry }) ⟨rfl, rfl, rfl⟩ rfl
  obtain ⟨fuel, hrun⟩ := (run?_iff_ends hs).mpr ⟨ending, t, hends, rfl⟩
  refine ⟨fuel, _, hrun, ?_, ?_, hfaultless.outcome _⟩
  · rw [session_endingOutcome]
    exact ⟨hsame.code, hsame.dictionary, hsame.phase⟩
  · rw [session_endingOutcome]

end Session

end MiniForth
