import MiniForth.Proofs.Frame
import MiniForth.Proofs.Interpreter

/-!
# What a line performs

A line has primitives carried out by its tokens and by the code that these run. What is asked of a line
is often asked of each of them, in the session where it is carried out.

* `LinePerformsOnly`: every primitive that a line has carried out is an allowed one.
* `linePerformsOnly_of_checks`: for a line that comes to its end this can be checked.
-/

namespace MiniForth

namespace Session

/-- If the next dispatch carries out a primitive, it is an allowed one. -/
def DispatchesOnly (allowed : Session → Primitive → Prop) (s : Session) : Prop :=
  ∀ p, s.upcoming? = some (.primitive p) → allowed s p

/-- The token has allowed primitives carried out only, by itself or by the code that it runs. -/
def PerformsOnly (allowed : Session → Primitive → Prop) (s : Session) (t : Token) : Prop :=
  ∀ word, s.executed? t = some word →
    match word.behavior with
    | .primitive p    => allowed s p
    | .compiled entry => (Call.start s entry).Always (DispatchesOnly allowed)

/-- The line has allowed primitives carried out only, up to where it ends or fails. -/
def LinePerformsOnly (allowed : Session → Primitive → Prop) (s : Session) (line : String) : Prop :=
  ∀ s' t, Meets s.startLine (Token.ofLine source s.startLine.lines line) s' t →
    s'.PerformsOnly allowed t

variable {allowed allowed' : Session → Primitive → Prop} {s : Session} {t : Token} {line : String}

theorem PerformsOnly.imp (h : s.PerformsOnly allowed t)
    (himp : ∀ u p, allowed u p → allowed' u p) : s.PerformsOnly allowed' t := by
  intro word hword
  have hbehavior := h word hword
  rcases hb : word.behavior with p | entry
  · rw [hb] at hbehavior
    exact himp s p hbehavior
  · rw [hb] at hbehavior
    exact fun n d hturns hd p hp => himp d.session p (hbehavior n d hturns hd p hp)

theorem PerformsOnly.and (h : s.PerformsOnly allowed t) (h' : s.PerformsOnly allowed' t) :
    s.PerformsOnly (fun u p => allowed u p ∧ allowed' u p) t := by
  intro word hword
  have hbehavior := h word hword
  have hbehavior' := h' word hword
  rcases hb : word.behavior with p | entry
  · rw [hb] at hbehavior hbehavior'
    exact ⟨hbehavior, hbehavior'⟩
  · rw [hb] at hbehavior hbehavior'
    exact fun n d hturns hd p hp => ⟨hbehavior n d hturns hd p hp, hbehavior' n d hturns hd p hp⟩

/-! ## Checking -/

instance (allowed : Session → Primitive → Prop) [∀ s p, Decidable (allowed s p)] :
    DecidablePred (DispatchesOnly allowed) := fun s =>
  decidable_of_iff (∀ p ∈ Primitive.all, s.upcoming? = some (.primitive p) → allowed s p) <| by
    constructor
    · intro hall p hp
      refine hall p ?_ hp
      cases p <;> decide
    · intro hall p _ hp
      exact hall p hp

/-- `PerformsOnly`, checked for a token whose call comes to its end within `fuel` turns. -/
def performsOnly (allowed : Session → Primitive → Prop) [∀ s p, Decidable (allowed s p)] (fuel : Nat)
    (s : Session) (t : Token) : Bool :=
  match (s.executed? t).map Word.behavior with
  | none                   => true
  | some (.primitive p)    => decide (allowed s p)
  | some (.compiled entry) => (Call.start s entry).checks (DispatchesOnly allowed) fuel

theorem performsOnly_of_check [∀ s p, Decidable (allowed s p)] {fuel : Nat}
    (h : s.performsOnly allowed fuel t = true) : s.PerformsOnly allowed t := by
  intro word hword
  rw [performsOnly, hword, Option.map_some] at h
  rcases hb : word.behavior with p | entry
  · rw [hb] at h
    exact of_decide_eq_true h
  · rw [hb] at h
    exact Call.always_of_checks h

/-- Where a line has a response, `LinePerformsOnly` can be checked. -/
theorem linePerformsOnly_of_checks [∀ s p, Decidable (allowed s p)] {fuel : Nat}
    (hend : (s.process? fuel line).isSome)
    (h : (met fuel s.startLine (Token.ofLine source s.startLine.lines line)).all
      (fun found => found.1.performsOnly allowed fuel found.2) = true) :
    s.LinePerformsOnly allowed line := by
  intro s' t hmeets
  rw [process?, Option.isSome_map] at hend
  exact performsOnly_of_check (List.all_eq_true.mp h _ (mem_met hmeets hend))

end Session

end MiniForth
