import MiniForth.Program

/-!
# Lines in the input

Input as bytes is made of lines as texts. The newline is the only character with the byte of a newline
in its encoding, so the bytes are split where the text is, and each part is the encoding of a line.

* `splitLines_append_newline`, `splitLines_of_not_mem`: lines with and without a newline at their end.
* `readings_toUTF8`: the readings of lines that are ended, with an unended one behind them.
-/

namespace MiniForth.Program

/-! ## Bytes and characters -/

theorem newline_mem_utf8EncodeChar_iff {c : Char} :
    newline ∈ String.utf8EncodeChar c ↔ c = '\n' := by
  have hvalue : c = '\n' ↔ c.val.toNat = 10 := by
    rw [← Char.val_inj, ← UInt32.toNat_inj]
    rfl
  rw [hvalue]
  -- The bytes of a longer encoding all have their highest bit set.
  fun_cases String.utf8EncodeChar c <;>
    simp only [newline, List.mem_cons, List.not_mem_nil, or_false, ← UInt8.toNat_inj,
      UInt8.toNat_ofNat', UInt8.reduceToNat, Nat.reducePow] <;> omega

/-- The bytes of a text. -/
def bytesOf (text : String) : List UInt8 := text.toUTF8.data.toList

theorem bytesOf_eq_flatMap (text : String) :
    bytesOf text = text.toList.flatMap String.utf8EncodeChar := by
  rw [bytesOf, String.toUTF8_eq_toByteArray, ← String.utf8Encode_toList, List.utf8Encode,
    List.toList_data_toByteArray]

theorem bytesOf_append (first second : String) :
    bytesOf (first ++ second) = bytesOf first ++ bytesOf second := by
  rw [bytesOf_eq_flatMap, String.toList_append, List.flatMap_append, ← bytesOf_eq_flatMap,
    ← bytesOf_eq_flatMap]

theorem newline_mem_bytesOf_iff {text : String} : newline ∈ bytesOf text ↔ '\n' ∈ text.toList := by
  simp only [bytesOf_eq_flatMap, List.mem_flatMap, newline_mem_utf8EncodeChar_iff, exists_eq_right]

theorem readingOfBytes_bytesOf (text : String) : readingOfBytes (bytesOf text) = .line text := by
  have hbytes : (bytesOf text).toByteArray = text.toByteArray := by
    apply ByteArray.ext
    rw [bytesOf, String.toUTF8_eq_toByteArray, List.data_toByteArray, Array.toArray_toList]
  rw [readingOfBytes, hbytes, String.fromUTF8?, dif_pos text.isValidUTF8]
  rfl

/-! ## Lines -/

theorem splitLines_append_newline {line : List UInt8} (h : newline ∉ line) (rest : List UInt8) :
    splitLines (line ++ newline :: rest) = line :: splitLines rest := by
  induction line with
  | nil => simp [splitLines]
  | cons byte line ih =>
    obtain ⟨hbyte, hline⟩ : ¬newline = byte ∧ newline ∉ line := by simpa using h
    simp only [splitLines] at ih ⊢
    rw [List.cons_append, List.foldr_cons, ih hline, if_neg (Ne.symm hbyte)]

theorem splitLines_of_not_mem {line : List UInt8} (h : newline ∉ line) :
    splitLines line = if line = [] then [] else [line] := by
  induction line with
  | nil => rfl
  | cons byte line ih =>
    obtain ⟨hbyte, hline⟩ : ¬newline = byte ∧ newline ∉ line := by simpa using h
    simp only [splitLines] at ih ⊢
    rw [List.foldr_cons, ih hline, if_neg (Ne.symm hbyte), if_neg (List.cons_ne_nil byte line)]
    rcases line with _ | ⟨next, line⟩ <;> rfl

/-- The text of lines that all end with a newline. -/
def ended (lines : List String) : String := String.join (lines.map (· ++ "\n"))

theorem splitLines_ended {lines : List String} (hlines : ∀ line ∈ lines, '\n' ∉ line.toList)
    (rest : List UInt8) :
    splitLines (bytesOf (ended lines) ++ rest) = lines.map bytesOf ++ splitLines rest := by
  induction lines with
  | nil => rfl
  | cons line lines ih =>
    obtain ⟨hline, hlines⟩ := List.forall_mem_cons.mp hlines
    have hnewline : bytesOf "\n" = [newline] := by decide
    rw [ended, List.map_cons, String.join_cons, bytesOf_append, bytesOf_append, hnewline,
      List.append_assoc, List.append_assoc, List.singleton_append,
      splitLines_append_newline (mt newline_mem_bytesOf_iff.mp hline), ← ended, ih hlines]
    rfl

/-- Each line gives a reading, and so does what follows the last newline, unless it is empty. -/
theorem readings_toUTF8 {lines : List String} {last : String}
    (hlines : ∀ line ∈ lines, '\n' ∉ line.toList) (hlast : '\n' ∉ last.toList) :
    readings (ended lines ++ last).toUTF8 =
      (if last = "" then lines else lines ++ [last]).map .line := by
  have hempty : bytesOf last = [] ↔ last = "" := by
    rw [← String.toByteArray_inj, ByteArray.ext_iff, ← Array.toList_inj]
    rfl
  have hsplit : splitLines (bytesOf (ended lines ++ last)) =
      (if last = "" then lines else lines ++ [last]).map bytesOf := by
    rw [bytesOf_append, splitLines_ended hlines,
      splitLines_of_not_mem (mt newline_mem_bytesOf_iff.mp hlast)]
    simp only [hempty]
    split <;> simp
  rw [readings, ← bytesOf, hsplit, List.map_map]
  exact List.map_congr_left fun line _ => readingOfBytes_bytesOf line

/-- The newlines between lines are those behind all but the last. -/
theorem intercalate_newline (lines : List String) (last : String) :
    "\n".intercalate (lines ++ [last]) = ended lines ++ last := by
  induction lines with
  | nil => simp [ended]
  | cons line lines ih =>
    rw [List.cons_append, String.intercalate_cons_of_ne_nil (by simp), ih, ended, ended, List.map_cons,
      String.join_cons]
    simp only [String.append_assoc]

end MiniForth.Program
