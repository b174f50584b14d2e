import MiniForth.Proofs.Performing
import MiniForth.Proofs.Reachability
import MiniForth.Proofs.Tokens

/-!
# Confined sessions

A session is confined to some primitives, each perhaps only in certain states, when lines lead to it
that have no others carried out, be it by their tokens or by the code that these run.

What the definitions of a session are like, the dictionary, the mode and the phase, is changed by
primitives and by names only. A property of these that the allowed primitives and names keep holds of
every confined session; what code does with the cursor and with the stacks does not matter to it.

* `Session.Kept`: such a property.
* `Kept.step`, `Kept.run?`, `Kept.interprets`: it is kept by a step, a call and a token.
* `Confined.invariant`: it holds of every confined session that it holds of at first.
-/

namespace MiniForth

namespace Session

/-- A session that lines lead to which have allowed primitives carried out only. -/
inductive Confined (allowed : Session → Primitive → Prop) : Session → Prop where
  | initial : Confined allowed .initial
  | line {s t : Session} {fuel : Nat} {text : String} {response : Response} :
      Confined allowed s → s.LinePerformsOnly allowed text →
      s.process? fuel text = some (response, t) → Confined allowed t

/-- A property of dictionary, mode and phase that allowed primitives and names keep. -/
structure Kept (allowed : Session → Primitive → Prop) (P : Session → Prop) : Prop where
  congr {s t : Session} : P s → t.dictionary = s.dictionary → t.mode = s.mode →
    t.phase = s.phase → P t
  /-- The cursor may have moved on before the primitive is carried out. -/
  perform (s : Session) (cursor : Nat) (p : Primitive) : allowed s p → P s →
    P (Outcome.session (p.perform { s with cursor }))
  name (s : Session) (name : String) : name ≠ "" → s.phase = .awaitingName → P s →
    P (s.nameDefinition name)

variable {allowed : Session → Primitive → Prop} {P : Session → Prop} {s t : Session}

theorem Confined.reachable (hs : s.Confined allowed) : s.Reachable := by
  induction hs with
  | initial => exact .initial
  | line _ _ h ih => exact .line ih h

theorem performsOnly_true (s : Session) (token : Token) : s.PerformsOnly (fun _ _ => True) token := by
  intro word _
  rcases word.behavior with p | entry
  · trivial
  · exact fun _ _ _ _ _ _ => trivial

/-- Where everything is allowed, all sessions are confined. -/
theorem Reachable.confined (hs : s.Reachable) : s.Confined fun _ _ => True := by
  induction hs with
  | initial => exact .initial
  | line _ h ih => exact .line ih (fun u token _ => performsOnly_true u token) h

namespace Kept

theorem step (hP : Kept allowed P) (hs : P s) (hall : s.DispatchesOnly allowed) :
    P (Frame.step s).session := by
  apply Frame.step_session hs (hP.congr hs rfl rfl rfl)
  intro p hp
  obtain ⟨stack, cursor, hsession⟩ := Frame.session_perform s.skipCell p
  rw [hsession]
  exact hP.congr (hP.perform s (s.cursor + 1) p (hall p hp) hs) rfl rfl rfl

theorem run? (hP : Kept allowed P) (hs : P s) {fuel entry : Nat} {o : Outcome Unit}
    (hall : (Call.start s entry).Always (DispatchesOnly allowed))
    (h : s.run? fuel entry = some o) : P (Outcome.session o) := by
  obtain ⟨n, -, c, hturns, -, rfl⟩ := run?_eq_some_iff.mp h
  rw [Call.session_outcome]
  have hstart : P (Call.start s entry).session := hP.congr hs rfl rfl rfl
  refine hall.invariant (I := fun c => P c.session) ?_ hturns hstart
  intro d hd hallowed hPd
  obtain ⟨cursor, returns, hturn⟩ := Call.session_turn hd
  rw [hturn]
  exact hP.congr (hP.step hPd hallowed) rfl rfl rfl

theorem interprets (hP : Kept allowed P) (hs : P s) (hreturns : s.returns = []) {fuel : Nat}
    {token : Token} {o : Outcome Unit} (htext : token.text ≠ "") (hall : s.PerformsOnly allowed token)
    (h : s.Interprets fuel token o) : P (Outcome.session o) := by
  cases h with
  | name hphase => exact hP.name s token.text htext hphase hs
  | @perform index word p hphase hpending hfind hruns hp =>
    have hallowed := hall word (executed?_eq hphase hpending hfind hruns)
    rw [hp] at hallowed
    obtain ⟨pending, hsession⟩ := session_performOnTokens p hreturns
    rw [hsession]
    exact hP.congr (hP.perform s s.cursor p hallowed hs) rfl rfl rfl
  | @run index word entry _ hphase hpending hfind hruns hentry hrun =>
    have hallowed := hall word (executed?_eq hphase hpending hfind hruns)
    rw [hentry] at hallowed
    exact hP.run? hs hallowed hrun
  | _ => exact hP.congr hs rfl rfl rfl

theorem process? (hP : Kept allowed P) (hs : P s) (hreturns : s.returns = []) {fuel : Nat}
    {line : String} {response : Response} (hall : s.LinePerformsOnly allowed line)
    (h : s.process? fuel line = some (response, t)) : P t := by
  apply process?_invariant_of_returns (P := P) _ _ _ _ hreturns hs h
  · intro u l hPu
    exact hP.congr hPu rfl rfl rfl
  · intro u token o hmeets hu hPu hinterprets
    have htext : token.text ≠ "" := Token.text_ne_empty hmeets.mem
    exact hP.interprets hPu hu htext (hall u token hmeets) hinterprets
  · intro u hPu
    exact hP.congr hPu rfl rfl rfl
  · intro u hPu
    exact hP.congr hPu rfl rfl rfl

end Kept

/-- What a new session has and allowed primitives and names keep, every confined session has. -/
theorem Confined.invariant (hs : s.Confined allowed) (hP : Kept allowed P) (hinitial : P .initial) :
    P s := by
  induction hs with
  | initial => exact hinitial
  | line hs hall h ih => exact hP.process? ih hs.reachable.returns_eq_nil hall h

end Session

end MiniForth
