import MiniForth.Proofs.Readings

/-!
# Where a line comes from

Lines from the command line and lines from the input make one conversation. `Conversation` says what
that is without saying where its lines come from: each line that has something in it is processed by one
common session, and nothing is written for the others.

* `trims_iff_eq_trim`: trimming takes the blanks at the two ends away and nothing else.
* `answerAll?_fst_eq_some_iff`: lines that are answered are a conversation.
* `converse?_lines`: lines that are read are answered as if they had been given in advance.
* `transcript_of_cut`: what the program writes depends on the lines as a whole.
-/

namespace MiniForth

/-! ## Trimming -/

namespace Text

/-- The core of a text is what stands between the blanks at its two ends. -/
structure Trims (text core : String) : Prop where
  blanks : ∃ front back : List Char, text.toList = front ++ core.toList ++ back ∧
    ∀ c ∈ front ++ back, isBlank c = true
  first  : ∀ c ∈ core.toList.head?, isBlank c = false
  last   : ∀ c ∈ core.toList.getLast?, isBlank c = false

theorem not_isBlank_head?_dropWhile (cs : List Char) :
    ∀ c ∈ (cs.dropWhile isBlank).head?, isBlank c = false := by
  intro c hc
  have hhead := List.head?_dropWhile_not isBlank cs
  rwa [Option.mem_def.mp hc] at hhead

theorem dropWhile_isBlank_append {front core : List Char} (hfront : ∀ c ∈ front, isBlank c = true)
    (hfirst : ∀ c ∈ core.head?, isBlank c = false) :
    (front ++ core).dropWhile isBlank = core := by
  rw [List.dropWhile_append_of_pos hfront]
  rcases core with _ | ⟨c, core⟩
  · rfl
  · exact List.dropWhile_cons_of_neg (by simp [hfirst c rfl])

theorem trims_trim (text : String) : Trims text (trim text) := by
  let rest := text.toList.dropWhile isBlank
  have hcore : (trim text).toList = (rest.reverse.dropWhile isBlank).reverse := String.toList_ofList
  have hrest : rest = (trim text).toList ++ (rest.reverse.takeWhile isBlank).reverse := by
    rw [hcore, ← List.reverse_append, List.takeWhile_append_dropWhile, List.reverse_reverse]
  refine ⟨⟨text.toList.takeWhile isBlank, (rest.reverse.takeWhile isBlank).reverse, ?_, ?_⟩, ?_, ?_⟩
  · rw [List.append_assoc, ← hrest, List.takeWhile_append_dropWhile]
  · intro c hc
    rw [List.mem_append, List.mem_reverse] at hc
    rcases hc with hc | hc <;> exact List.all_eq_true.mp List.all_takeWhile c hc
  · intro c hc
    apply not_isBlank_head?_dropWhile text.toList
    show c ∈ rest.head?
    rw [hrest, List.head?_append, Option.mem_def.mp hc]
    rfl
  · rw [hcore, List.getLast?_reverse]
    exact not_isBlank_head?_dropWhile _

theorem trims_iff_eq_trim {text core : String} : Trims text core ↔ core = trim text := by
  refine ⟨fun h => ?_, fun h => h ▸ trims_trim text⟩
  obtain ⟨⟨front, back, htext, hblank⟩, hfirst, hlast⟩ := h
  obtain ⟨hfront, hback⟩ := List.forall_mem_append.mp hblank
  apply String.toList_injective
  rw [trim, String.toList_ofList, htext, List.append_assoc]
  rcases hcore : core.toList with _ | ⟨c, cs⟩
  · -- Nothing ends the blanks at the front.
    rw [List.nil_append, ← List.append_nil (front ++ back), dropWhile_isBlank_append hblank (by simp)]
    rfl
  · rw [dropWhile_isBlank_append hfront (by simpa [hcore] using hfirst), List.reverse_append,
      dropWhile_isBlank_append (by simpa using hback) (by simpa [← hcore] using hlast),
      List.reverse_reverse]

end Text

/-! ## Conversations -/

namespace Repl

/-- A line of a session with what came of it. -/
structure Exchange where
  line     : String
  response : Response
  /-- The session that the line leaves. -/
  session  : Session

/-- What is printed for an exchange, line by line. -/
def Exchange.printed (showState : Bool) (e : Exchange) : List String :=
  (e.line ++ " " ++ e.response.text) :: if showState then [e.session.panel] else []

/-- What is written in the course of some exchanges. -/
def written (showState : Bool) (exchanges : List Exchange) : String :=
  String.join ((exchanges.flatMap (·.printed showState)).map (· ++ "\n"))

/-- The exchanges that lines make, one after the other, in a session. Each line has to end within the
turns that it has. -/
inductive Conversation (fuel : Nat) : Session → List String → List Exchange → Prop where
  | nil (s) : Conversation fuel s [] []
  | blank {s line lines exchanges} : Text.Trims line "" → Conversation fuel s lines exchanges →
      Conversation fuel s (line :: lines) exchanges
  | line {s s' line core response lines exchanges} : Text.Trims line core → core ≠ "" →
      s.process? fuel core = some (response, s') → Conversation fuel s' lines exchanges →
      Conversation fuel s (line :: lines) ({ line := core, response, session := s' } :: exchanges)

/-- What is written by a program that is given these lines. -/
def Tells (fuel : Nat) (showState : Bool) (lines : List String) (t : Transcript) : Prop :=
  ∃ exchanges, Conversation fuel .initial lines exchanges ∧
    t = { written := written showState exchanges, status := 0 }

variable {fuel : Nat} {showState : Bool} {s : Session}

/-! ## Lines that are answered -/

theorem written_cons (e : Exchange) (exchanges : List Exchange) :
    written showState (e :: exchanges) =
      echo showState e.line e.response e.session ++ written showState exchanges := by
  rw [written, List.flatMap_cons, List.map_append, String.join_append, ← written, Exchange.printed, echo]
  cases showState <;> simp [String.append_assoc]

theorem answer?_of_blank {line : String} (h : Text.trim line = "") :
    answer? fuel showState s line = some ("", s) := by
  rw [answer?, h, answerTrimmed?]
  rfl

theorem answer?_of_ne_blank {line : String} (h : Text.trim line ≠ "") :
    answer? fuel showState s line = (s.process? fuel (Text.trim line)).map fun (response, s) =>
      (echo showState (Text.trim line) response s, s) := by
  rw [answer?, answerTrimmed?, if_neg (by simpa using h)]

theorem answerAll?_append (first second : List String) :
    answerAll? fuel showState s (first ++ second) =
      (answerAll? fuel showState s first).bind fun (told, s) =>
        (answerAll? fuel showState s second).map fun (others, s) => (told ++ others, s) := by
  induction first generalizing s with
  | nil => simp [answerAll?]
  | cons line first ih =>
    simp only [List.cons_append, answerAll?, ih, Option.bind_assoc, Option.map_bind, Option.bind_map,
      Option.map_map, Function.comp_def, String.append_assoc]

theorem conversation_cons_of_blank {line : String} {lines : List String} {exchanges : List Exchange}
    (h : Text.trim line = "") :
    Conversation fuel s (line :: lines) exchanges ↔ Conversation fuel s lines exchanges := by
  refine ⟨fun hconversation => ?_, .blank (Text.trims_iff_eq_trim.mpr h.symm)⟩
  cases hconversation with
  | blank _ hlines      => exact hlines
  | line hcore hne _ _  => exact absurd ((Text.trims_iff_eq_trim.mp hcore).trans h) hne

theorem conversation_cons_of_ne_blank {line : String} {lines : List String} {exchanges : List Exchange}
    (h : Text.trim line ≠ "") :
    Conversation fuel s (line :: lines) exchanges ↔
      ∃ response s' others, s.process? fuel (Text.trim line) = some (response, s') ∧
        Conversation fuel s' lines others ∧
          exchanges = { line := Text.trim line, response, session := s' } :: others := by
  constructor
  · intro hconversation
    cases hconversation with
    | blank hcore _            => exact absurd (Text.trims_iff_eq_trim.mp hcore).symm h
    | line hcore _ hrun hlines =>
      cases Text.trims_iff_eq_trim.mp hcore
      exact ⟨_, _, _, hrun, hlines, rfl⟩
  · rintro ⟨response, s', others, hrun, hlines, rfl⟩
    exact .line (Text.trims_trim line) h hrun hlines

/-- Lines that are answered make a conversation. -/
theorem answerAll?_fst_eq_some_iff {lines : List String} {told : String} :
    (answerAll? fuel showState s lines).map Prod.fst = some told ↔
      ∃ exchanges, Conversation fuel s lines exchanges ∧ told = written showState exchanges := by
  induction lines generalizing s told with
  | nil =>
    constructor
    · rintro ⟨⟩
      exact ⟨[], .nil s, rfl⟩
    · rintro ⟨_, ⟨⟩, rfl⟩
      rfl
  | cons line lines ih =>
    by_cases hblank : Text.trim line = ""
    · have hrest : (answerAll? fuel showState s (line :: lines)).map Prod.fst =
          (answerAll? fuel showState s lines).map Prod.fst := by
        simp [answerAll?, answer?_of_blank hblank]
      simp only [hrest, ih, conversation_cons_of_blank hblank]
    · simp only [conversation_cons_of_ne_blank hblank]
      rw [answerAll?, answer?_of_ne_blank hblank]
      rcases s.process? fuel (Text.trim line) with _ | ⟨response, s'⟩
      · simp
      · have hothers : ((answerAll? fuel showState s' lines).map fun (others, s) =>
              (echo showState (Text.trim line) response s' ++ others, s)).map Prod.fst =
            ((answerAll? fuel showState s' lines).map Prod.fst).map
              (echo showState (Text.trim line) response s' ++ ·) := by
          simp [Function.comp_def]
        rw [Option.map_some, Option.bind_some, hothers, Option.map_eq_some_iff]
        simp only [ih]
        constructor
        · rintro ⟨_, ⟨others, hlines, rfl⟩, rfl⟩
          refine ⟨⟨Text.trim line, response, s'⟩ :: others, ⟨response, s', others, rfl, hlines, rfl⟩, ?_⟩
          rw [written_cons]
        · rintro ⟨_, ⟨_, _, others, ⟨⟩, hlines, rfl⟩, rfl⟩
          refine ⟨written showState others, ⟨others, hlines, rfl⟩, ?_⟩
          rw [written_cons]

theorem answerAll?_eq_some_iff_tells {lines : List String} {t : Transcript} :
    ((answerAll? fuel showState .initial lines).map fun (told, _) =>
      ({ written := told, status := endStatus } : Transcript)) = some t ↔ Tells fuel showState lines t := by
  have hmap : ((answerAll? fuel showState .initial lines).map fun (told, _) =>
        ({ written := told, status := endStatus } : Transcript)) =
      ((answerAll? fuel showState .initial lines).map Prod.fst).map fun told =>
        { written := told, status := endStatus } := by
    simp [Function.comp_def]
  rw [hmap, Option.map_eq_some_iff]
  simp only [answerAll?_fst_eq_some_iff]
  constructor
  · rintro ⟨_, ⟨exchanges, h, rfl⟩, rfl⟩
    exact ⟨exchanges, h, rfl⟩
  · rintro ⟨exchanges, h, rfl⟩
    exact ⟨_, ⟨exchanges, h, rfl⟩, rfl⟩

/-! ## Lines that are read -/

/-- Without a prompt, lines that are read are answered as if they had been given in advance. -/
theorem converse?_lines {r : Repl} (hprompt : r.options.prompt = "") (lines : List String)
    (told : String) :
    converse? fuel (r.await told) (lines.map .line) =
      (answerAll? fuel r.options.showState r.session lines).map fun (others, _) =>
        { written := told ++ others, status := endStatus } := by
  induction lines generalizing r told with
  | nil => simp [await, converse?, answerAll?, hprompt]
  | cons line lines ih =>
    rw [List.map_cons, await, converse?, feed?, answerAll?]
    rcases answer? fuel r.options.showState r.session line with _ | ⟨first, s⟩
    · rfl
    · simp only [Option.map_some, Option.bind_eq_bind, Option.bind_some]
      rw [ih (r := { r with session := s }) hprompt first]
      rcases answerAll? fuel r.options.showState s lines with _ | ⟨others, s⟩
      · rfl
      · simp [hprompt]

/-- An empty line at the end is answered by nothing. -/
theorem answerAll?_append_empty (lines : List String) :
    answerAll? fuel showState s (lines ++ [""]) = answerAll? fuel showState s lines := by
  rw [answerAll?_append]
  rcases answerAll? fuel showState s lines with _ | ⟨told, s'⟩
  · rfl
  · have hempty : answer? fuel showState s' "" = some ("", s') := answer?_of_blank rfl
    simp [answerAll?, hempty]

/-- The lines that are given in advance and those that are read are answered as one list. -/
theorem start?_bind_converse? {options : Options} (hprompt : options.prompt = "") {lines : List String}
    (hread : options.interactive = false → lines = []) :
    ((start? fuel options).bind fun step => converse? fuel step (lines.map .line)) =
      (answerAll? fuel options.showState .initial (options.lines ++ lines)).map fun (told, _) =>
        { written := told, status := endStatus } := by
  rw [start?, answerAll?_append]
  rcases answerAll? fuel options.showState .initial options.lines with _ | ⟨told, s⟩
  · rfl
  · rcases hinteractive : options.interactive
    · rw [hread hinteractive]
      simp [converse?, answerAll?]
    · have hconverse := @converse?_lines fuel { options, session := s } hprompt lines told
      simp [hconverse, Function.comp_def]

end Repl

/-! ## The program -/

namespace Program

/-- The input has these lines: each ends with a newline, only the last one need not. -/
def Carries (input : ByteArray) (lines : List String) : Prop :=
  input = (ended lines).toUTF8 ∨ input = ("\n".intercalate lines).toUTF8

/-- The lines of the input are read, except for an empty one without a newline at its end. -/
theorem Carries.readings_eq {input : ByteArray} {lines : List String} (h : Carries input lines)
    (hlines : ∀ line ∈ lines, '\n' ∉ line.toList) :
    ∃ read, readings input = read.map .line ∧ (read = lines ∨ read ++ [""] = lines) := by
  rcases h with rfl | rfl
  · have hreadings := @readings_toUTF8 lines "" hlines (by simp)
    rw [String.append_empty, if_pos rfl] at hreadings
    exact ⟨lines, hreadings, .inl rfl⟩
  · rcases List.eq_nil_or_concat lines with rfl | ⟨front, last, rfl⟩
    · exact ⟨[], by decide, .inl rfl⟩
    · rw [List.concat_eq_append] at hlines ⊢
      obtain ⟨hfront, hlast⟩ := List.forall_mem_append.mp hlines
      rw [intercalate_newline, readings_toUTF8 hfront (hlast last (List.mem_singleton_self last))]
      by_cases hempty : last = ""
      · exact ⟨front, by rw [if_pos hempty], .inr (by rw [hempty])⟩
      · exact ⟨front ++ [last], by rw [if_neg hempty], .inl rfl⟩

/-- However lines are divided between the command line and the input, the program writes what they
tell, by whatever rules the arguments are read. -/
theorem transcript_of_cut {options : Repl.Options} {rest : List String} {input : ByteArray}
    (hprompt : options.prompt = "") (hlines : ∀ line ∈ rest, '\n' ∉ line.toList)
    (hinput : Carries input rest) (hread : options.interactive = false → rest = []) (fuel : Nat)
    (t : Repl.Transcript) :
    (((Repl.start? fuel options).bind fun step => Repl.converse? fuel step (readings input)) = some t ↔
      Repl.Tells fuel options.showState (options.lines ++ rest) t) ∧
    ∀ (rules : CommandLine.Rules) (arguments : List String), rules arguments = .ok (.run options) →
      (run? rules fuel arguments input = some t ↔
        Repl.Tells fuel options.showState (options.lines ++ rest) t) := by
  have htells : ((Repl.start? fuel options).bind fun step => Repl.converse? fuel step (readings input)) =
        some t ↔ Repl.Tells fuel options.showState (options.lines ++ rest) t := by
    obtain ⟨read, hreadings, hends⟩ := hinput.readings_eq hlines
    have hnothing : options.interactive = false → read = [] := by
      intro hinteractive
      rcases hends with rfl | hends
      · exact hread hinteractive
      · simp [hread hinteractive] at hends
    have hanswers : Repl.answerAll? fuel options.showState .initial (options.lines ++ read) =
        Repl.answerAll? fuel options.showState .initial (options.lines ++ rest) := by
      rcases hends with rfl | rfl
      · rfl
      · -- Nothing is told about an empty line at the end, read or not.
        rw [← List.append_assoc, Repl.answerAll?_append_empty]
    rw [hreadings, Repl.start?_bind_converse? hprompt hnothing, hanswers,
      Repl.answerAll?_eq_some_iff_tells]
  refine ⟨htells, fun rules arguments hrules => ?_⟩
  rwa [run?, start?, hrules]

/-- A definition and a blank line as arguments; in the input a line that uses it, an empty one, and one
that fails, without a newline at its end. -/
theorem transcript_of_cut_definition :
    let options : Repl.Options := { lines := [": inc 1 + ;", "  "], showState := true }
    let rest := ["\t3 inc .\r", "", "é "]
    let input := ("\n".intercalate rest).toUTF8
    let arguments := ["-e: inc 1 + ;", "--show-state", "--eval=  "]
    let panel := "mode:     immediate\ncompiler: idle\nwp:       4\nstack:    <0>\nreturn:   0\n" ++
      "code:\n   0:      2  lit\n   1:      1  literal\n   2:     10  +\n   3:      0  exit\n"
    let t : Repl.Transcript :=
      { written := ": inc 1 + ; ok\n" ++ panel ++ "\n" ++ "3 inc . 4 ok\n" ++ panel ++ "\n" ++
          "é ? <repl> (3, 1): Word é not found.\n" ++ panel ++ "\n",
        status := 0 }
    options.prompt = "" ∧ (∀ line ∈ rest, '\n' ∉ line.toList) ∧ Carries input rest ∧
      (options.interactive = false → rest = []) ∧
        CommandLine.parse arguments = .ok (.run options) ∧
          run? CommandLine.parse 100 arguments input = some t ∧
          Repl.Tells 100 true (options.lines ++ rest) t := by
  intro options rest input arguments panel t
  have hlines : ∀ line ∈ rest, '\n' ∉ line.toList := by decide
  have hread : options.interactive = false → rest = [] := by decide
  have hparse : CommandLine.parse arguments = .ok (.run options) := by cbv
  have hrun : run? CommandLine.parse 100 arguments input = some t := by decide +kernel
  exact ⟨rfl, hlines, .inr rfl, hread, hparse, hrun,
    ((transcript_of_cut rfl hlines (.inr rfl) hread 100 t).2 CommandLine.parse arguments hparse).mp hrun⟩

end Program

end MiniForth
