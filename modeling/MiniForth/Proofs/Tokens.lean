import MiniForth.Text.Token

/-!
# The words of a line

What `Token.ofReader` finds in a line that is put together from words and separators.

* `text_ne_empty`: there is something in each of them.
* `ofReader_cons`: a gap of separators and then a word.
* `texts_ofReader_of_spread`: words that are spread over a text come back as they are, and so do words
  with single spaces between them.
* `ofLine_split`: a separator splits a line into two that are read one after the other.
* `ofLine_stands`, `exists_stands`: a word that is set off by separators is one of the words, and all
  of the words are.
-/

namespace MiniForth

/-- Can the text be a word of a line? -/
def Text.IsWord (text : String) : Prop := text ≠ "" ∧ ∀ c ∈ text.toList, isSeparator c = false

theorem Text.IsWord.toList_ne_nil {text : String} (h : Text.IsWord text) : text.toList ≠ [] := by
  intro hnil
  exact h.1 (String.toList_eq_nil_iff.mp hnil)

instance (text : String) : Decidable (Text.IsWord text) :=
  have : Decidable (∀ c ∈ text.toList, Text.isSeparator c = false) := List.decidableBAll _ _
  inferInstanceAs (Decidable (_ ∧ _))

/-- The text is made of the words in their order and of separators, which set the words off. -/
inductive Text.Spread : List String → List Char → Prop where
  | nil {gap : List Char} : (∀ c ∈ gap, isSeparator c = true) → Spread [] gap
  | cons {gap rest : List Char} {word : String} {words : List String} :
      (∀ c ∈ gap, isSeparator c = true) → IsWord word → (∀ c ∈ rest.head?, isSeparator c = true) →
      Spread words rest → Spread (word :: words) (gap ++ word.toList ++ rest)

theorem Text.spread_intercalate {texts : List String} (htexts : ∀ w ∈ texts, IsWord w)
    {gap : List Char} (hgap : ∀ c ∈ gap, isSeparator c = true) :
    Spread texts (gap ++ (" ".intercalate texts).toList) := by
  induction texts generalizing gap with
  | nil =>
    apply Spread.nil
    simpa using hgap
  | cons w ws ih =>
    obtain ⟨hw, hws⟩ := List.forall_mem_cons.mp htexts
    rcases ws with _ | ⟨v, vs⟩
    · have hlast : Spread [w] (gap ++ w.toList ++ []) := .cons hgap hw (by simp) (.nil (by simp))
      rwa [List.append_nil] at hlast
    · have hrest : (" ".intercalate (w :: v :: vs)).toList =
          w.toList ++ ([' '] ++ (" ".intercalate (v :: vs)).toList) := by
        rw [String.intercalate_cons_cons, String.toList_append, String.toList_append,
          List.append_assoc]
        rfl
      rw [hrest, ← List.append_assoc]
      exact .cons hgap hw (by rintro c ⟨⟩; rfl) (ih hws (by simp; rfl))

namespace Token

/-- A line that has only separators left has no more words. -/
theorem ofReader_nil {r : Reader} (h : ∀ c ∈ r.rest, Text.isSeparator c = true) :
    ofReader r = [] := by
  have hskipped : (skipSeparators r).rest = [] := by
    show r.rest.dropWhile Text.isSeparator = []
    rw [← List.append_nil r.rest, List.dropWhile_append_of_pos h, List.dropWhile_nil]
  rw [ofReader, dif_pos]
  show (skipSeparators r).rest.takeWhile _ = []
  rw [hskipped, List.takeWhile_nil]

/-- No word is empty. -/
theorem text_ne_empty {r : Reader} {t : Token} (ht : t ∈ ofReader r) : t.text ≠ "" := by
  induction r using ofReader.induct with
  | case1 r start read hread =>
    rw [ofReader, dif_pos hread] at ht
    cases ht
  | case2 r start read hread ih =>
    rw [ofReader, dif_neg hread] at ht
    rcases List.mem_cons.mp ht with rfl | ht
    · intro hempty
      exact hread (String.ofList_eq_empty_iff.mp hempty)
    · exact ih ht

/-- A gap of separators, a word, and what follows on the word. -/
theorem ofReader_cons {r : Reader} {gap word rest : List Char} (hrest : r.rest = gap ++ word ++ rest)
    (hgap : ∀ c ∈ gap, Text.isSeparator c = true) (hne : word ≠ [])
    (hword : ∀ c ∈ word, Text.isSeparator c = false)
    (hend : ∀ c ∈ rest.head?, Text.isSeparator c = true) :
    ofReader r =
      { text := String.ofList word, location := r.location.advance gap.length } ::
        ofReader { location := r.location.advance (gap.length + word.length), rest } := by
  -- The gap ends at the first character of the word.
  obtain ⟨c, cs, rfl⟩ := List.exists_cons_of_ne_nil hne
  have hc : Text.isSeparator c = false := hword c List.mem_cons_self
  have htake : r.rest.takeWhile Text.isSeparator = gap := by
    rw [hrest, List.append_assoc, List.takeWhile_append_of_pos hgap, List.cons_append,
      List.takeWhile_cons_of_neg (by simp [hc]), List.append_nil]
  have hdrop : r.rest.dropWhile Text.isSeparator = (c :: cs) ++ rest := by
    rw [hrest, List.append_assoc, List.dropWhile_append_of_pos hgap, List.cons_append,
      List.dropWhile_cons_of_neg (by simp [hc])]
  have hskip : skipSeparators r =
      { location := r.location.advance gap.length, rest := (c :: cs) ++ rest } := by
    show Reader.mk _ _ = _
    rw [htake, hdrop]
  have hpos : ∀ x ∈ c :: cs, (!Text.isSeparator x) = true := by
    intro x hx
    rw [hword x hx]
    rfl
  have hstop : rest.takeWhile (!Text.isSeparator ·) = [] ∧
      rest.dropWhile (!Text.isSeparator ·) = rest := by
    rcases rest with _ | ⟨x, xs⟩
    · exact ⟨rfl, rfl⟩
    · have hx : Text.isSeparator x = true := hend x rfl
      exact ⟨List.takeWhile_cons_of_neg (by simp [hx]), List.dropWhile_cons_of_neg (by simp [hx])⟩
  have hread : Token.word (skipSeparators r) =
      (c :: cs, { location := r.location.advance (gap.length + (c :: cs).length), rest }) := by
    rw [hskip, Token.word, Reader.span]
    simp only [List.takeWhile_append_of_pos hpos, List.dropWhile_append_of_pos hpos, hstop.1,
      hstop.2, List.append_nil, Location.advance_advance]
  rw [ofReader, dif_neg (by rw [hread]; exact List.cons_ne_nil c cs), hread, hskip]

/-- Words that are spread over a text are the words of the text. -/
theorem texts_ofReader_of_spread {texts : List String} {r : Reader} (h : Text.Spread texts r.rest) :
    (ofReader r).map Token.text = texts := by
  generalize hrest : r.rest = rest at h
  induction h generalizing r with
  | nil hgap => rw [ofReader_nil (hrest ▸ hgap), List.map_nil]
  | cons hgap hword hend _ ih =>
    rw [ofReader_cons hrest hgap hword.toList_ne_nil hword.2 hend, List.map_cons, String.ofList_toList,
      ih rfl]

/-- Words with single spaces between them come back as they are. -/
theorem texts_ofLine_intercalate {texts : List String} (htexts : ∀ w ∈ texts, Text.IsWord w)
    (path : String) (line : Nat) :
    (ofLine path line (" ".intercalate texts)).map Token.text = texts := by
  have hspread : Text.Spread texts ([] ++ (" ".intercalate texts).toList) :=
    Text.spread_intercalate htexts (by simp)
  exact texts_ofReader_of_spread hspread

/-! ## Splitting a line -/

/-- Separators in front make no difference, except to where the words stand. -/
theorem ofReader_skip {gap : List Char} (hgap : ∀ c ∈ gap, Text.isSeparator c = true) (l : Location)
    (rest : List Char) :
    ofReader { location := l, rest := gap ++ rest } =
      ofReader { location := l.advance gap.length, rest } := by
  have hskip : skipSeparators { location := l, rest := gap ++ rest } =
      skipSeparators { location := l.advance gap.length, rest } := by
    show Reader.mk _ _ = Reader.mk _ _
    rw [List.takeWhile_append_of_pos hgap, List.dropWhile_append_of_pos hgap, List.length_append,
      Location.advance_advance]
  rw [ofReader.eq_1 { location := l, rest := gap ++ rest }, hskip, ← ofReader.eq_1]

theorem ofReader_skipSeparators (r : Reader) : ofReader (skipSeparators r) = ofReader r := by
  have hgap : ∀ c ∈ r.rest.takeWhile Text.isSeparator, Text.isSeparator c = true :=
    List.all_eq_true.mp List.all_takeWhile
  have hskip := ofReader_skip hgap r.location (r.rest.dropWhile Text.isSeparator)
  rw [List.takeWhile_append_dropWhile] at hskip
  exact hskip.symm

/-- Where no word is found, only separators are left. -/
theorem isSeparator_of_word_eq_nil {r : Reader} (h : (word (skipSeparators r)).1 = []) :
    ∀ c ∈ r.rest, Text.isSeparator c = true := by
  have hskipped : r.rest.dropWhile Text.isSeparator = [] := by
    have hhead := List.head?_dropWhile_not Text.isSeparator r.rest
    have hword : (r.rest.dropWhile Text.isSeparator).takeWhile (!Text.isSeparator ·) = [] := h
    rcases hdrop : r.rest.dropWhile Text.isSeparator with _ | ⟨x, xs⟩
    · rfl
    · rw [hdrop] at hhead hword
      rw [List.takeWhile_cons_of_pos (by simpa using hhead)] at hword
      cases hword
  intro c hc
  rw [← List.takeWhile_append_dropWhile (p := Text.isSeparator) (l := r.rest), hskipped,
    List.append_nil] at hc
  exact List.all_eq_true.mp List.all_takeWhile c hc

/-- The first word of a text stands behind a gap of separators and in front of one, or at the end. -/
theorem exists_gap (r : Reader) : ∃ gap : List Char,
    r.rest = gap ++ (word (skipSeparators r)).1 ++ (word (skipSeparators r)).2.rest ∧
    (∀ c ∈ gap, Text.isSeparator c = true) ∧
    (∀ c ∈ (word (skipSeparators r)).1, Text.isSeparator c = false) ∧
    (∀ c ∈ (word (skipSeparators r)).2.rest.head?, Text.isSeparator c = true) ∧
    (skipSeparators r).location = r.location.advance gap.length ∧
    (word (skipSeparators r)).2.location =
      r.location.advance (gap.length + (word (skipSeparators r)).1.length) := by
  refine ⟨r.rest.takeWhile Text.isSeparator, ?_, List.all_eq_true.mp List.all_takeWhile, ?_, ?_,
    Reader.location_span Text.isSeparator r, ?_⟩
  · rw [List.append_assoc, word, Reader.rest_span]
    exact (Reader.rest_span _ r).symm
  · intro c hc
    simpa using List.all_eq_true.mp List.all_takeWhile c hc
  · have hhead := List.head?_dropWhile_not (!Text.isSeparator ·) (skipSeparators r).rest
    show ∀ c ∈ ((skipSeparators r).rest.dropWhile (!Text.isSeparator ·)).head?, _
    intro c hc
    rw [hc] at hhead
    simpa using hhead
  · rw [word, Reader.location_span, skipSeparators, Reader.location_span, Location.advance_advance]
    rfl

/-- A separator splits a text into two whose words are read one after the other. -/
theorem ofReader_append {c : Char} (hc : Text.isSeparator c = true) (r : Reader)
    (after : List Char) :
    ofReader { r with rest := r.rest ++ c :: after } =
      ofReader r ++ ofReader { location := r.location.advance (r.rest.length + 1), rest := after } := by
  induction r using ofReader.induct with
  | case1 r start read hread =>
    have hall := isSeparator_of_word_eq_nil hread
    have hgap : ∀ x ∈ r.rest ++ [c], Text.isSeparator x = true := by
      intro x hx
      rcases List.mem_append.mp hx with hx | hx
      · exact hall x hx
      · rwa [List.mem_singleton.mp hx]
    have hskip := ofReader_skip hgap r.location after
    rw [List.append_assoc, List.singleton_append, List.length_append, List.length_singleton] at hskip
    rw [ofReader_nil hall, List.nil_append, hskip]
  | case2 r start read hread ih =>
    obtain ⟨gap, hrest, hgap, hword, hahead, hstart, hlocation⟩ := exists_gap r
    have hend : ∀ x ∈ (read.2.rest ++ c :: after).head?, Text.isSeparator x = true := by
      rw [List.head?_append]
      rcases hhead : read.2.rest.head? with _ | y
      · rintro _ ⟨⟩
        exact hc
      · rintro _ ⟨⟩
        exact hahead y hhead
    have hbehind : r.location.advance (r.rest.length + 1) =
        read.2.location.advance (read.2.rest.length + 1) := by
      rw [hlocation, Location.advance_advance, hrest]
      simp only [List.length_append, Nat.add_assoc]
      rfl
    have hsplit : r.rest ++ c :: after = gap ++ read.1 ++ (read.2.rest ++ c :: after) := by
      rw [← List.append_assoc]
      exact congrArg (· ++ c :: after) hrest
    rw [ofReader_cons (r := { r with rest := r.rest ++ c :: after }) hsplit hgap hread hword hend,
      ofReader.eq_1 r, dif_neg hread, List.cons_append, hbehind, ← ih, ← hlocation, hstart]

/-- The words of a text do not depend on where it stands. -/
theorem texts_ofReader_eq (r : Reader) (l : Location) :
    (ofReader { r with location := l }).map Token.text = (ofReader r).map Token.text := by
  revert l
  induction r using ofReader.induct with
  | case1 r start read hread =>
    intro l
    have hall := isSeparator_of_word_eq_nil hread
    rw [ofReader_nil (r := { r with location := l }) hall, ofReader_nil hall]
  | case2 r start read hread ih =>
    intro l
    have hread' : (word (skipSeparators { r with location := l })).1 ≠ [] := hread
    rw [ofReader.eq_1 { r with location := l }, dif_neg hread', ofReader.eq_1 r, dif_neg hread,
      List.map_cons, List.map_cons]
    exact congrArg _ (ih _)

/-- A line that a separator splits has the words of both parts, those of the first where they are. -/
theorem ofLine_split (path : String) (line : Nat) {c : Char} (hc : Text.isSeparator c = true)
    (first second : String) : ∃ ts,
      ofLine path line (first ++ String.singleton c ++ second) = ofLine path line first ++ ts ∧
        ∀ line', ts.map Token.text = (ofLine path line' second).map Token.text := by
  let behind : Location := (Reader.ofLine path line first).location.advance (first.toList.length + 1)
  refine ⟨ofReader { location := behind, rest := second.toList }, ?_,
    fun line' => texts_ofReader_eq (Reader.ofLine path line' second) behind⟩
  have htext : (first ++ String.singleton c ++ second).toList =
      first.toList ++ c :: second.toList := by
    simp
  rw [ofLine, Reader.ofLine, htext]
  exact ofReader_append hc (Reader.ofLine path line first) second.toList

end Token

/-! ## Where words stand -/

/-- `word` is one of the words of the line `before ++ word ++ after`: separators set it off, or the ends
of the line. -/
structure Text.Stands (before word after : String) : Prop where
  isWord : IsWord word
  behind : ∀ c ∈ before.toList.getLast?, isSeparator c = true
  ahead  : ∀ c ∈ after.toList.head?, isSeparator c = true

instance (before word after : String) : Decidable (Text.Stands before word after) :=
  decidable_of_iff (Text.IsWord word ∧ before.toList.getLast?.all Text.isSeparator = true ∧
      after.toList.head?.all Text.isSeparator = true) <| by
    rw [Option.all_eq_true, Option.all_eq_true]
    constructor
    · rintro ⟨hword, hbehind, hahead⟩
      exact ⟨hword, hbehind, hahead⟩
    · intro h
      exact ⟨h.isWord, h.behind, h.ahead⟩

namespace Token

/-- A word that stands in a text is read behind the words before it. -/
theorem ofReader_stands {before word after : String} (h : Text.Stands before word after)
    (l : Location) :
    ofReader { location := l, rest := (before ++ word ++ after).toList } =
      ofReader { location := l, rest := before.toList } ++
        { text := word, location := l.advance before.length } ::
          ofReader { location := l.advance (before ++ word).length, rest := after.toList } := by
  -- The word comes first in what is left behind the last separator.
  have hfirst (l' : Location) : ofReader { location := l', rest := word.toList ++ after.toList } =
      { text := word, location := l' } ::
        ofReader { location := l'.advance word.length, rest := after.toList } := by
    have hsplit : word.toList ++ after.toList = [] ++ word.toList ++ after.toList := by simp
    have hcons := ofReader_cons (r := { location := l', rest := word.toList ++ after.toList })
      hsplit (by simp) h.isWord.toList_ne_nil h.isWord.2 h.ahead
    rw [hcons, List.length_nil, Location.advance_zero, Nat.zero_add, String.ofList_toList,
      String.length_toList]
  have hlength : before.length = before.toList.length := String.length_toList.symm
  rw [String.toList_append, String.toList_append, String.length_append, hlength, List.append_assoc]
  rcases List.eq_nil_or_concat before.toList with hnil | ⟨front, c, hfront⟩
  · have hnone : ofReader { location := l, rest := [] } = [] := ofReader_nil (by simp)
    rw [hnil, List.nil_append, hfirst, hnone, List.nil_append, List.length_nil, Location.advance_zero,
      Nat.zero_add]
  · have hc : Text.isSeparator c = true := h.behind c (by rw [hfront]; simp)
    have hwhole := ofReader_append hc { location := l, rest := front } (word.toList ++ after.toList)
    have halone := ofReader_append hc { location := l, rest := front } []
    rw [ofReader_nil (r := { location := _, rest := [] }) (by simp), List.append_nil] at halone
    rw [hfront, List.concat_eq_append, List.append_assoc, List.singleton_append, hwhole, halone, hfirst,
      Location.advance_advance, List.length_append, List.length_singleton]

/-- A word that stands in a line is read in its column, behind the words before it. -/
theorem ofLine_stands {before word after : String} (h : Text.Stands before word after) (path : String)
    (line : Nat) : ∃ ts, ofLine path line (before ++ word ++ after) =
      ofLine path line before ++
        { text := word, location := { path, line, column := before.length + 1 } } :: ts := by
  have hread := ofReader_stands h { path, line, column := 1 }
  rw [Location.advance, Nat.add_comm 1] at hread
  exact ⟨_, hread⟩

/-- A text that does not begin with a word begins with a separator in front of all its words. -/
theorem exists_cons_of_stands {before word after : String} (h : Text.Stands before word after)
    (hhead : ∀ c ∈ (before ++ word ++ after).toList.head?, Text.isSeparator c = true) :
    ∃ c cs, before.toList = c :: cs ∧ Text.isSeparator c = true := by
  rw [String.toList_append, String.toList_append, List.append_assoc] at hhead
  rcases hbefore : before.toList with _ | ⟨c, cs⟩
  · obtain ⟨x, xs, hword⟩ := List.exists_cons_of_ne_nil h.isWord.toList_ne_nil
    have hx : Text.isSeparator x = false := h.isWord.2 x (by rw [hword]; exact List.mem_cons_self)
    rw [hbefore, hword] at hhead
    rw [hhead x rfl] at hx
    cases hx
  · rw [hbefore] at hhead
    exact ⟨c, cs, rfl, hhead c rfl⟩

/-- Every word that is read stands in the text, behind the words that are read before it. -/
theorem exists_stands (r : Reader) (ts : List Token) {t : Token} {ts' : List Token}
    (h : ofReader r = ts ++ t :: ts') : ∃ before word after : String,
      r.rest = (before ++ word ++ after).toList ∧ Text.Stands before word after ∧
      t = { text := word, location := r.location.advance before.length } ∧
      ofReader { r with rest := before.toList } = ts := by
  induction r using ofReader.induct generalizing ts with
  | case1 r start read hread =>
    rw [ofReader, dif_pos hread] at h
    exact absurd h.symm (by simp)
  | case2 r start read hread ih =>
    obtain ⟨gap, hrest, hgap, hword, hahead, hstart, hlocation⟩ := exists_gap r
    rw [ofReader, dif_neg hread] at h
    rcases ts with _ | ⟨first, ts⟩
    · -- The first word stands behind the gap.
      obtain ⟨rfl, -⟩ := List.cons.inj h
      refine ⟨String.ofList gap, String.ofList read.1, String.ofList read.2.rest, ?_,
        ⟨⟨?_, ?_⟩, ?_, ?_⟩, ?_, ?_⟩
      · simpa using hrest
      · simpa using hread
      · simpa using hword
      · intro c hc
        rw [String.toList_ofList] at hc
        exact hgap c (List.mem_of_getLast? hc)
      · simpa using hahead
      · rw [hstart, String.length_ofList]
      · rw [String.toList_ofList]
        exact ofReader_nil hgap
    · -- A later one stands in what the first word leaves, behind the separator there.
      obtain ⟨rfl, hts⟩ := List.cons.inj h
      obtain ⟨before, word, after, hmore, hstands, rfl, rfl⟩ := ih ts hts
      obtain ⟨c, cs, hbefore, hc⟩ := exists_cons_of_stands hstands (by rw [← hmore]; exact hahead)
      have hfirst : ∀ x ∈ before.toList.head?, Text.isSeparator x = true := by
        rw [hbefore]
        rintro x ⟨⟩
        exact hc
      have hlast : (gap ++ read.1 ++ before.toList).getLast? = before.toList.getLast? := by
        simp [hbefore, List.getLast?_append, List.getLast?_cons]
      refine ⟨String.ofList (gap ++ read.1) ++ before, word, after, ?_,
        ⟨hstands.isWord, ?_, hstands.ahead⟩, ?_, ?_⟩
      · have hrest : r.rest = gap ++ read.1 ++ read.2.rest := hrest
        rw [hrest, hmore]
        simp
      · rw [String.toList_append, String.toList_ofList, hlast]
        exact hstands.behind
      · have hlocation : read.2.location = r.location.advance (gap.length + read.1.length) := hlocation
        rw [hlocation, Location.advance_advance, String.length_append, String.length_ofList,
          List.length_append]
      · rw [String.toList_append, String.toList_ofList,
          ofReader_cons (r := { r with rest := gap ++ read.1 ++ before.toList }) rfl hgap hread hword
            hfirst, hstart, ← hlocation]

end Token

end MiniForth
