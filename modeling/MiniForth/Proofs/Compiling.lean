import Mathlib.Algebra.Group.Nat.Defs
import MiniForth.Proofs.Sound

/-!
# Compiling

What the cells are that tokens compile to. `Dictionary.cells` gives them, and `Laid` says that code
holds those of some tokens from one address to another; both refer to the dictionary that the tokens
were looked up in, since later words may take their names.

* `toList_compileAll`: cells that are compiled come behind what is there.
* `interpret?_compile`, `interpretAll?_compile`: in compile mode the tokens of a body have their cells
  compiled.
* `interpretAll?_definition`: a whole definition adds one word and its code.
-/

namespace MiniForth

namespace Session

variable {s : Session}

/-! ## Writing cells -/

theorem toList_compile (hcursor : s.cursor = s.code.size) (cell : Cell) :
    (s.compile cell).code.toList = s.code.toList ++ [cell] := by
  show (s.code.poke s.cursor cell).toList = _
  rw [Stack.toList_poke_of_ge (Nat.le_of_eq hcursor.symm), hcursor, Nat.sub_self]
  simp

theorem prefix_compile (hcursor : s.cursor = s.code.size) (cell : Cell) :
    s.code.toList <+: (s.compile cell).code.toList := by
  rw [toList_compile hcursor]
  exact List.prefix_append _ _

theorem size_compile (hcursor : s.cursor = s.code.size) (cell : Cell) :
    (s.compile cell).code.size = s.code.size + 1 := by
  rw [← Stack.length_toList, toList_compile hcursor]
  simp

theorem get?_compile (hcursor : s.cursor = s.code.size) (cell : Cell) :
    (s.compile cell).code.get? s.code.size = some cell := by
  rw [← Stack.getElem?_toList, toList_compile hcursor, ← Stack.length_toList,
    List.getElem?_concat_length]

/-- Writes cells to an address and the ones behind it. -/
def pokeAll (code : Stack Cell) (address : Nat) : List Cell → Stack Cell
  | []            => code
  | cell :: cells => pokeAll (code.poke address cell) (address + 1) cells

/-- Where there is no gap to fill, the cells take their own addresses and no others. -/
theorem size_pokeAll {code : Stack Cell} {address : Nat} (h : address ≤ code.size) (cells : List Cell) :
    (pokeAll code address cells).size = max code.size (address + cells.length) := by
  induction cells generalizing code address with
  | nil => exact (Nat.max_eq_left h).symm
  | cons cell cells ih =>
    have hsize : (code.poke address cell).size = max code.size (address + 1) :=
      code.size_poke address cell
    rw [pokeAll, ih (by omega), hsize, List.length_cons]
    omega

theorem get?_pokeAll_of_lt {code : Stack Cell} {address other : Nat} (h : address ≤ code.size)
    (hother : other < address) (cells : List Cell) :
    (pokeAll code address cells).get? other = code.get? other := by
  induction cells generalizing code address with
  | nil => rfl
  | cons cell cells ih =>
    have hsize : (code.poke address cell).size = max code.size (address + 1) :=
      code.size_poke address cell
    rw [pokeAll, ih (by omega) (by omega), Stack.get?_poke, if_neg (by omega), if_neg (by omega)]

/-- Compiles cells, one after the other. -/
def compileAll (s : Session) (cells : List Cell) : Session :=
  { s with code := pokeAll s.code s.cursor cells, cursor := s.cursor + cells.length }

@[simp] theorem compileAll_nil (s : Session) : s.compileAll [] = s := rfl

theorem compileAll_cons (s : Session) (cell : Cell) (cells : List Cell) :
    s.compileAll (cell :: cells) = (s.compile cell).compileAll cells := by
  simp only [compileAll, pokeAll, compile, List.length_cons, Nat.add_assoc, Nat.add_comm 1]

theorem compileAll_append (s : Session) (cells more : List Cell) :
    s.compileAll (cells ++ more) = (s.compileAll cells).compileAll more := by
  induction cells generalizing s with
  | nil => rfl
  | cons cell cells ih => rw [List.cons_append, compileAll_cons, ih, compileAll_cons]

theorem compileWord_eq (s : Session) (index : Nat) :
    s.compileWord index = s.compileAll [Cell.ofIndex index] := rfl

theorem compileNumber_eq (s : Session) (value : Cell) :
    s.compileNumber value = s.compileAll [Cell.ofIndex Vocabulary.literalIndex, value] := rfl

/-- Cells that are compiled come behind what is there. -/
theorem toList_compileAll (hcursor : s.cursor = s.code.size) (cells : List Cell) :
    (s.compileAll cells).code.toList = s.code.toList ++ cells := by
  induction cells generalizing s with
  | nil => rw [compileAll_nil, List.append_nil]
  | cons cell cells ih =>
    have hcursor' : (s.compile cell).cursor = (s.compile cell).code.size := by
      rw [size_compile hcursor, ← hcursor]
      rfl
    rw [compileAll_cons, ih hcursor', toList_compile hcursor, List.append_assoc,
      List.singleton_append]

theorem cursor_compileAll (hcursor : s.cursor = s.code.size) (cells : List Cell) :
    (s.compileAll cells).cursor = (s.compileAll cells).code.size := by
  rw [← Stack.length_toList, toList_compileAll hcursor, List.length_append, Stack.length_toList,
    ← hcursor]
  rfl

/-- The index of every word is a cell. An array with more words than that fits no memory. -/
def Addressable (s : Session) : Prop := s.dictionary.size ≤ 2 ^ 63

instance (s : Session) : Decidable s.Addressable := inferInstanceAs (Decidable (_ ≤ _))

theorem resolve?_ofIndex {d : Dictionary} {index : Nat} (h : index < 2 ^ 63) :
    d.resolve? (Cell.ofIndex index) = d.get? index := by
  have hindex : (Cell.ofIndex index).index? = some index := by
    rw [Cell.index?, Cell.ofIndex, Int64.toInt_ofNat_of_lt h]
  rw [Dictionary.resolve?, hindex, Option.bind_some]

/-- The cell of a word means that word wherever the dictionary is carried to. -/
theorem behaviorAt?_of_get? {d : Dictionary} (hcarries : d.Carries s.dictionary) {address index : Nat}
    {word : Word} (hcell : s.code.get? address = some (Cell.ofIndex index)) (hindex : index < 2 ^ 63)
    (hword : d.get? index = some word) : s.behaviorAt? address = some word.behavior := by
  obtain ⟨word', hword', hbehavior⟩ := hcarries index word hword
  rw [behaviorAt?, hcell, Option.bind_some, resolve?_ofIndex hindex, hword', Option.map_some,
    hbehavior]

/-- The cell of an initial word means that word. -/
theorem behaviorAt?_of_vocabulary {d : Dictionary} (hstandard : d.Standard)
    (hcarries : d.Carries s.dictionary) {address index : Nat} {old : Word} (hindex : index < 2 ^ 63)
    (hold : Vocabulary.dictionary.get? index = some old)
    (hcell : s.code.get? address = some (Cell.ofIndex index)) :
    s.behaviorAt? address = some old.behavior := by
  obtain ⟨word, hword, hbecomes⟩ := hstandard.vocabulary index old hold
  rw [← hbecomes.behavior]
  exact behaviorAt?_of_get? hcarries hcell hindex hword

theorem behaviorAt?_compileWord (hcursor : s.cursor = s.code.size) {index : Nat} {word : Word}
    (hindex : index < 2 ^ 63) (hword : s.dictionary.get? index = some word) :
    (s.compileWord index).behaviorAt? s.code.size = some word.behavior :=
  behaviorAt?_of_get? (.refl _) (get?_compile hcursor _) hindex hword

theorem cursor_compileWord (hcursor : s.cursor = s.code.size) (index : Nat) :
    (s.compileWord index).cursor = (s.compileWord index).code.size := by
  show s.cursor + 1 = (s.compile _).code.size
  rw [size_compile hcursor, hcursor]

theorem prefix_compileNumber (hcursor : s.cursor = s.code.size) (value : Cell) :
    s.code.toList <+: (s.compileNumber value).code.toList :=
  (prefix_compile hcursor _).trans (prefix_compile (cursor_compileWord hcursor _) value)

end Session

/-! ## The newest word -/

namespace Dictionary

theorem findBelow?_congr {d d' : Dictionary} {name : String} {count : Nat}
    (h : ∀ index < count, d'.get? index = d.get? index) :
    d'.findBelow? name count = d.findBelow? name count := by
  induction count with
  | zero => rfl
  | succ count ih =>
    have hbelow := ih fun index hindex => h index (Nat.lt_succ_of_lt hindex)
    rw [findBelow?, findBelow?, h count (Nat.lt_succ_self count), hbelow]

/-- A new word is found first, if it can be found. -/
theorem find?_add (d : Dictionary) (word : Word) (name : String) :
    (d.add word).find? name =
      if (word.isVisible && word.name == name) = true then some (d.size, word) else d.find? name := by
  have hbelow : (d.add word).findBelow? name d.size = d.findBelow? name d.size := by
    apply findBelow?_congr
    intro index hindex
    rw [get?_add, if_neg (Nat.ne_of_lt hindex)]
  rw [find?, size_add, findBelow?, get?_add, if_pos rfl, hbelow]
  rfl

theorem changeLast?_add (d : Dictionary) (word : Word) (f : Word → Option Word) :
    (d.add word).changeLast? f = (f word).map d.add := by
  simp [changeLast?, last?, add]
  rfl

theorem nameLast?_add (d : Dictionary) {word : Word} (hword : word.name = "") (name : String) :
    (d.add word).nameLast? name = some (d.add { word with name }) := by
  rw [nameLast?, changeLast?_add, hword]
  rfl

theorem revealLast?_add (d : Dictionary) (word : Word) :
    (d.add word).revealLast? = some (d.add { word with hidden := false }) := by
  rw [revealLast?, changeLast?_add]
  rfl

end Dictionary

/-! ## The cells of tokens -/

/-- From `start` to `stop` the code holds the cells of the tokens, as they are found in `d`. -/
inductive Laid (d : Dictionary) (code : Stack Cell) : List String → Nat → Nat → Prop where
  | nil (address : Nat) : Laid d code [] address address
  | word {text : String} {texts : List String} {index start stop : Nat} {word : Word} :
      d.find? text = some (index, word) → code.get? start = some (Cell.ofIndex index) →
      Laid d code texts (start + 1) stop → Laid d code (text :: texts) start stop
  | number {text : String} {texts : List String} {start stop : Nat} {value : Cell} :
      d.find? text = none → Numeral.value? text = some value →
      code.get? start = some (Cell.ofIndex Vocabulary.literalIndex) →
      code.get? (start + 1) = some value → Laid d code texts (start + 2) stop →
      Laid d code (text :: texts) start stop

namespace Dictionary

/-- Does the text name the primitive? -/
def Names (d : Dictionary) (text : String) (p : Primitive) : Prop :=
  ∃ found ∈ d.find? text, found.2.behavior = .primitive p

/-- Can the token be part of a definition? It is a word that does not act at once, or a number. -/
def Compiles (d : Dictionary) (text : String) : Prop :=
  (∃ found ∈ d.find? text, found.2.immediate = false) ∨
    (d.find? text = none ∧ (Numeral.value? text).isSome)

instance (d : Dictionary) (text : String) (p : Primitive) : Decidable (d.Names text p) := by
  unfold Names
  infer_instance

instance (d : Dictionary) (text : String) : Decidable (d.Compiles text) := by
  unfold Compiles
  infer_instance

/-- The cells that the text stands for in a definition: the index of the word it names, or else the
number it means behind the index of `lit`. -/
def cells (d : Dictionary) (text : String) : List Cell :=
  match d.find? text, Numeral.value? text with
  | some (index, _), _ => [Cell.ofIndex index]
  | none, some value   => [Cell.ofIndex Vocabulary.literalIndex, value]
  | none, none         => []

theorem cells_of_find? {d : Dictionary} {text : String} {index : Nat} {word : Word}
    (h : d.find? text = some (index, word)) : d.cells text = [Cell.ofIndex index] := by
  rw [cells, h]

theorem cells_of_value? {d : Dictionary} {text : String} {value : Cell}
    (h : d.find? text = none) (hvalue : Numeral.value? text = some value) :
    d.cells text = [Cell.ofIndex Vocabulary.literalIndex, value] := by
  rw [cells, h, hvalue]

end Dictionary

/-- The cells of tokens in code are the tokens laid. -/
theorem laid_of_toList {d : Dictionary} {texts : List String} (htexts : ∀ text ∈ texts, d.Compiles text)
    {code : Stack Cell} {before after : List Cell}
    (hcode : code.toList = before ++ texts.flatMap d.cells ++ after) :
    Laid d code texts before.length (before.length + (texts.flatMap d.cells).length) := by
  induction texts generalizing before with
  | nil => exact .nil _
  | cons text texts ih =>
    have hrest : ∀ text' ∈ texts, d.Compiles text' := by
      intro text' htext'
      exact htexts text' (List.mem_cons_of_mem text htext')
    have hlaid := @ih hrest (before ++ d.cells text) (by rw [hcode]; simp)
    rcases htexts text List.mem_cons_self with ⟨⟨index, word⟩, hfind, -⟩ | ⟨hnone, hsome⟩
    · have hfind : d.find? text = some (index, word) := hfind
      rw [Dictionary.cells_of_find? hfind] at hlaid
      have hcell : code.get? before.length = some (Cell.ofIndex index) := by
        rw [← Stack.getElem?_toList, hcode, List.flatMap_cons, Dictionary.cells_of_find? hfind]
        simp
      refine .word hfind hcell ?_
      rw [List.flatMap_cons, Dictionary.cells_of_find? hfind]
      simpa [Nat.add_assoc, Nat.add_comm 1] using hlaid
    · obtain ⟨value, hvalue⟩ := Option.isSome_iff_exists.mp hsome
      rw [Dictionary.cells_of_value? hnone hvalue] at hlaid
      have hcell : code.get? before.length = some (Cell.ofIndex Vocabulary.literalIndex) := by
        rw [← Stack.getElem?_toList, hcode, List.flatMap_cons, Dictionary.cells_of_value? hnone hvalue]
        simp
      have hnext : code.get? (before.length + 1) = some value := by
        rw [← Stack.getElem?_toList, hcode, List.flatMap_cons, Dictionary.cells_of_value? hnone hvalue]
        simp
      refine .number hnone hvalue hcell hnext ?_
      rw [List.flatMap_cons, Dictionary.cells_of_value? hnone hvalue]
      simpa [Nat.add_assoc, Nat.add_comm 2] using hlaid

namespace Session

/-- A token of a body has its cells compiled, and nothing else changes. -/
theorem interpret?_compile {d : Dictionary} {t : Token} (ht : d.Compiles t.text) {s : Session}
    (hmode : s.mode = .compile) (hphase : s.phase = .compiling) (hpending : s.pending = .nothing)
    (hfind : s.dictionary.find? t.text = d.find? t.text) (fuel : Nat) :
    s.interpret? fuel t = some (.ok () (s.compileAll (d.cells t.text))) := by
  have hphase' : s.phase ≠ .awaitingName := by
    rw [hphase]
    intro h
    cases h
  rcases ht with ⟨⟨index, word⟩, hword, himmediate⟩ | ⟨hnone, hsome⟩
  · have hword : d.find? t.text = some (index, word) := hword
    rw [Dictionary.cells_of_find? hword, ← compileWord_eq]
    exact interpret?_eq_some_iff.mpr
      (.compileWord hphase' hpending (hfind.trans hword) hmode himmediate)
  · obtain ⟨value, hvalue⟩ := Option.isSome_iff_exists.mp hsome
    rw [Dictionary.cells_of_value? hnone hvalue, ← compileNumber_eq]
    exact interpret?_eq_some_iff.mpr
      (.compileNumber hphase' hpending (hfind.trans hnone) hvalue hmode)

/-- The tokens of a body have their cells compiled, one after the other. -/
theorem interpretAll?_compile {d : Dictionary} {ts : List Token} (hts : ∀ t ∈ ts, d.Compiles t.text)
    {s : Session} (hmode : s.mode = .compile) (hphase : s.phase = .compiling)
    (hpending : s.pending = .nothing)
    (hfind : ∀ name, s.dictionary.find? name = d.find? name) :
    ∃ l, ∀ fuel, s.interpretAll? fuel ts = some (.ok ()
      { s.compileAll ((ts.map Token.text).flatMap d.cells) with location := l }) := by
  induction ts generalizing s with
  | nil => exact ⟨s.location, fun fuel => rfl⟩
  | cons t ts ih =>
    have hrest : ∀ t' ∈ ts, d.Compiles t'.text := by
      intro t' ht'
      exact hts t' (List.mem_cons_of_mem t ht')
    have hfirst := interpret?_compile (s := { s with location := some t.location })
      (hts t List.mem_cons_self) hmode hphase hpending (hfind t.text)
    obtain ⟨l, hall⟩ := ih
      (s := compileAll { s with location := some t.location } (d.cells t.text)) hrest hmode hphase
      hpending hfind
    refine ⟨l, ?_⟩
    intro fuel
    rw [interpretAll?_cons_of_ok (hfirst fuel), hall fuel, List.map_cons, List.flatMap_cons,
      compileAll_append]
    rfl

/-! ## Definitions -/

/-- A token that names a primitive which works on definitions has it performed, in either mode. -/
theorem interpret?_of_defines {s : Session} (hstandard : s.dictionary.Standard)
    (hphase : s.phase ≠ .awaitingName) (hpending : s.pending = .nothing) {t : Token} {p : Primitive}
    (hdefines : p.defines = true) (hreveal : p ≠ .reveal) (hnames : s.dictionary.Names t.text p)
    (fuel : Nat) : s.interpret? fuel t = some (p.performOnTokens s) := by
  obtain ⟨⟨index, word⟩, hfind, hbehavior⟩ := hnames
  have hfind : s.dictionary.find? t.text = some (index, word) := hfind
  have himmediate : word.immediate = true :=
    hstandard.immediate_of_defines (Dictionary.find?_eq_some hfind).2.1 hbehavior hdefines hreveal
  have hruns : ¬ (s.mode = .compile ∧ word.immediate = false) := by
    rw [himmediate]
    rintro ⟨-, h⟩
    cases h
  exact interpret?_eq_some_iff.mpr (.perform hphase hpending hfind hruns hbehavior)

theorem performOnTokens_colon {s : Session} (hreturns : s.returns = []) :
    Primitive.colon.performOnTokens s =
      if s.mode = .compile then .error (.ofCause s.location .nestedColon) s
      else .ok () s.openDefinition := by
  rw [performOnTokens_eq _ hreturns, Primitive.perform_colon]
  by_cases hmode : s.mode = .compile
  · rw [if_pos hmode, if_pos hmode]
  · rw [if_neg hmode, if_neg hmode]

theorem performOnTokens_semicolon {s : Session} (hreturns : s.returns = []) :
    Primitive.semicolon.performOnTokens s =
      if s.mode = .immediate then .error (.ofCause s.location .unexpectedSemicolon) s.closeDefinition
      else .ok () s.closeDefinition := by
  rw [performOnTokens_eq _ hreturns, Primitive.perform_semicolon]
  by_cases hmode : s.mode = .immediate
  · rw [if_pos hmode, if_pos hmode]
  · rw [if_neg hmode, if_neg hmode]

theorem nameDefinition_openDefinition (s : Session) (l : Option Location) (name : String) :
    nameDefinition { s.openDefinition with location := l } name = { s with
      dictionary := s.dictionary.add { name, hidden := true, behavior := .compiled s.cursor }
      mode := .compile, phase := .compiling, location := l } := by
  have hadd := @Dictionary.nameLast?_add s.dictionary
    { name := "", hidden := true, behavior := .compiled s.cursor } rfl name
  show { s with
    dictionary := ((s.dictionary.add _).nameLast? name).getD _
    mode := .compile, phase := .compiling, location := l } = _
  rw [hadd, Option.getD_some]

theorem closeDefinition_eq {s : Session} {d : Dictionary} {word : Word}
    (h : s.dictionary = d.add word) :
    s.closeDefinition = { s with
      code := (s.compileWord Vocabulary.exitIndex).code, cursor := s.cursor + 1
      dictionary := d.add { word with hidden := false }, mode := .immediate, phase := .idle } := by
  show { s with
    code := _, cursor := _, dictionary := s.dictionary.revealLast?.getD s.dictionary
    mode := .immediate, phase := .idle } = _
  rw [h, Dictionary.revealLast?_add, Option.getD_some]
  rfl

/-- The session after the definition of a word with the given cells. -/
def define (s : Session) (name : String) (cells : List Cell) : Session :=
  { s.compileAll (cells ++ [Cell.ofIndex Vocabulary.exitIndex]) with
    dictionary := s.dictionary.add { name, behavior := .compiled s.cursor }
    mode       := .immediate
    phase      := .idle }

/-- A definition adds one word, with the cells of its body and an `exit` behind what is there. -/
theorem interpretAll?_definition {ts : List Token} {colon name semicolon : Token} {s : Session}
    (hts : ∀ t ∈ ts, s.dictionary.Compiles t.text) (hmode : s.mode = .immediate)
    (hphase : s.phase ≠ .awaitingName) (hpending : s.pending = .nothing) (hreturns : s.returns = [])
    (hstandard : s.dictionary.Standard)
    (hcolon : s.dictionary.Names colon.text .colon)
    (hsemicolon : s.dictionary.Names semicolon.text .semicolon) :
    ∃ l, ∀ fuel, s.interpretAll? fuel (colon :: name :: (ts ++ [semicolon])) = some (.ok ()
      { s.define name.text ((ts.map Token.text).flatMap s.dictionary.cells) with location := l }) := by
  have hmode' : s.mode ≠ .compile := by
    rw [hmode]
    simp
  let hiddenWord : Word := { name := name.text, hidden := true, behavior := .compiled s.cursor }
  let begun : Session := { s with
    dictionary := s.dictionary.add hiddenWord
    mode := .compile, phase := .compiling, location := some name.location }
  -- The word is hidden while its body is compiled, so everything else is found as before.
  have hfind : ∀ text, begun.dictionary.find? text = s.dictionary.find? text := by
    intro text
    exact (s.dictionary.find?_add hiddenWord text).trans (if_neg (by simp [hiddenWord, Word.isVisible]))
  let started : Session := { s with location := some colon.location }
  have hopen : ∀ fuel, interpret? fuel started colon = some (.ok () started.openDefinition) := by
    intro fuel
    rw [interpret?_of_defines (s := started) hstandard hphase hpending rfl (by decide) hcolon,
      performOnTokens_colon (s := started) hreturns, if_neg hmode']
  have hname : ∀ fuel, interpret? fuel { started.openDefinition with location := some name.location }
      name = some (.ok () begun) := by
    intro fuel
    rw [interpret?_eq_some_iff.mpr (.name rfl), nameDefinition_openDefinition]
  obtain ⟨l, hbody⟩ := interpretAll?_compile (s := begun) hts rfl rfl hpending hfind
  let cells := (ts.map Token.text).flatMap s.dictionary.cells
  let written : Session := { begun.compileAll cells with location := some semicolon.location }
  have hclose : ∀ fuel, interpret? fuel written semicolon = some (.ok () written.closeDefinition) := by
    intro fuel
    have hstandardWritten : written.dictionary.Standard := hstandard.add rfl ⟨s.cursor, rfl⟩
    have hphaseWritten : written.phase ≠ .awaitingName := by simp [written, begun, compileAll]
    have hmodeWritten : written.mode ≠ .immediate := by simp [written, begun, compileAll]
    have hnames : written.dictionary.Names semicolon.text .semicolon := by
      obtain ⟨found, hfound, hbehavior⟩ := hsemicolon
      exact ⟨found, (hfind semicolon.text).trans hfound, hbehavior⟩
    rw [interpret?_of_defines hstandardWritten hphaseWritten hpending rfl (by decide) hnames,
      performOnTokens_semicolon (s := written) hreturns, if_neg hmodeWritten]
  refine ⟨some semicolon.location, ?_⟩
  intro fuel
  have hlast := interpretAll?_cons_of_ok (s := { begun.compileAll cells with location := l })
    (hclose fuel) []
  rw [interpretAll?_cons_of_ok (hopen fuel), interpretAll?_cons_of_ok (hname fuel),
    interpretAll?_append, hbody fuel]
  refine hlast.trans ?_
  rw [closeDefinition_eq (show written.dictionary = s.dictionary.add hiddenWord from rfl), define,
    compileAll_append]
  rfl

end Session

end MiniForth
