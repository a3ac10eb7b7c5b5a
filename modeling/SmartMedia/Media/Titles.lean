import SmartMedia.Media.EmbyNaming

/-!
# Titles of words

Titles of words with single spaces between them, in which nothing but letters may stand, and what
the cleaning of names and of parsed titles leaves of them.
-/
namespace SmartMedia.Media
open PythonRegex PythonRegex.Pattern PythonText MediaParser EmbyNamingService

/-- Letters of every script are such characters. -/
def isTitleChar (c : Char) : Bool :=
  !isSpace c && !isDecimal c &&
    !isOneOf ['<', '>', ':', '"', '/', '\\', '|', '?', '*', '.', '_', '-', '(', ')', '[', ']'] c

structure Title where
  words : List Path
  words_ne_nil : words ≠ []
  word_ne_nil : ∀ w ∈ words, w ≠ []
  isTitleChar : ∀ w ∈ words, ∀ c ∈ w, isTitleChar c = true

def Title.text (title : Title) : Path := [' '].intercalate title.words

section Characters
variable {c : Char}

theorem not_isSpace (h : isTitleChar c = true) : isSpace c = false := by
  rw [isTitleChar, Bool.and_eq_true, Bool.and_eq_true, Bool.not_eq_true'] at h
  exact h.1.1

theorem not_isDecimal (h : isTitleChar c = true) : isDecimal c = false := by
  rw [isTitleChar, Bool.and_eq_true, Bool.and_eq_true, Bool.not_eq_true', Bool.not_eq_true'] at h
  exact h.1.2

theorem isOneOf_eq_false {cs : List Char} : isOneOf cs c = false ↔ c ∉ cs := by
  rw [isOneOf, Bool.eq_false_iff, ne_eq, List.contains_iff_mem]

/-- A title character is none of those with a meaning in names. -/
theorem not_isOneOf {cs : List Char} (h : isTitleChar c = true)
    (hcs : cs ⊆ ['<', '>', ':', '"', '/', '\\', '|', '?', '*', '.', '_', '-', '(', ')', '[', ']']) :
    isOneOf cs c = false := by
  rw [isTitleChar, Bool.and_eq_true, Bool.not_eq_true', isOneOf_eq_false] at h
  exact isOneOf_eq_false.mpr fun hc => h.2 (hcs hc)

theorem isSpace_blank : isSpace ' ' = true := rfl

theorem ne_blank (h : isTitleChar c = true) : c ≠ ' ' := by
  rintro rfl
  cases h

end Characters

section Words
variable {w : Path} {ws : List Path}

theorem intercalate_cons (w : Path) (ws : List Path) :
    [' '].intercalate (w :: ws) = w ++ ws.flatMap (' ' :: ·) := by
  induction ws generalizing w with
  | nil => rw [List.intercalate_singleton, List.flatMap_nil, List.append_nil]
  | cons w' ws ih =>
      rw [List.intercalate_cons_cons, ih, List.flatMap_cons, List.append_assoc]
      rfl

/-- Words are found again between the blanks. -/
theorem splitWords_intercalate (hne : ∀ w ∈ ws, w ≠ []) (hws : ∀ w ∈ ws, ∀ c ∈ w, isSpace c = false) :
    splitWords ([' '].intercalate ws) = ws := by
  induction ws with
  | nil => rfl
  | cons w ws ih =>
      have hw := hws w List.mem_cons_self
      have hwne := hne w List.mem_cons_self
      have hrest := ih (fun v hv => hne v (List.mem_cons_of_mem w hv))
        fun v hv => hws v (List.mem_cons_of_mem w hv)
      cases ws with
      | nil =>
          rw [List.intercalate_singleton, splitWords, List.splitOnP_eq_singleton hw]
          simp [hwne]
      | cons w' ws =>
          rw [List.intercalate_cons_cons, List.append_assoc, List.singleton_append, splitWords,
            List.splitOnP_append_cons_of_forall_mem hw ' ' isSpace_blank,
            List.filter_cons_of_pos (by simpa using hwne)]
          rw [splitWords] at hrest
          rw [hrest]

/-- After a blank there is a later word. -/
theorem after_blank {first x v : Path} (hfirst : ' ' ∉ first) (hws : ∀ w ∈ ws, ' ' ∉ w)
    (h : x ++ ' ' :: v = first ++ ws.flatMap (' ' :: ·)) :
    ∃ w ∈ ws, ∃ rest, v = w ++ rest ∧ (rest = [] ∨ ∃ rest', rest = ' ' :: rest') := by
  induction ws generalizing first x with
  | nil =>
      rw [List.flatMap_nil, List.append_nil] at h
      exact absurd (h ▸ by simp) hfirst
  | cons w ws ih =>
      have hw := hws w List.mem_cons_self
      rw [List.flatMap_cons, List.cons_append] at h
      rcases List.append_eq_append_iff.mp h with ⟨y, rfl, hy⟩ | ⟨y, rfl, hy⟩
      · cases y with
        | nil =>
            have hv : v = w ++ ws.flatMap (' ' :: ·) := (List.cons.inj hy).2
            refine ⟨w, List.mem_cons_self, _, hv, ?_⟩
            cases ws with
            | nil => exact .inl rfl
            | cons w' ws => exact .inr ⟨_, rfl⟩
        | cons c y =>
            rw [List.cons_append] at hy
            obtain ⟨rfl, -⟩ := List.cons.inj hy
            simp at hfirst
      · cases y with
        | nil =>
            have hv : v = w ++ ws.flatMap (' ' :: ·) := (List.cons.inj hy).2.symm
            refine ⟨w, List.mem_cons_self, _, hv, ?_⟩
            cases ws with
            | nil => exact .inl rfl
            | cons w' ws => exact .inr ⟨_, rfl⟩
        | cons c y =>
            rw [List.cons_append] at hy
            obtain ⟨later, hlater, hrest⟩ :=
              ih hw (fun w' hw' => hws w' (List.mem_cons_of_mem w hw')) (List.cons.inj hy).2.symm
            exact ⟨later, List.mem_cons_of_mem w hlater, hrest⟩

end Words

namespace Title
variable (title : Title) {c : Char}

theorem mem_text (hc : c ∈ title.text) : Media.isTitleChar c = true ∨ c = ' ' := by
  obtain ⟨w, ws, hwords⟩ := List.exists_cons_of_ne_nil title.words_ne_nil
  rw [text, hwords, intercalate_cons, List.mem_append, List.mem_flatMap] at hc
  rcases hc with hc | ⟨v, hv, hc⟩
  · exact .inl (title.isTitleChar w (hwords ▸ List.mem_cons_self) c hc)
  · rcases List.mem_cons.mp hc with rfl | hc
    · exact .inr rfl
    · exact .inl (title.isTitleChar v (hwords ▸ List.mem_cons_of_mem w hv) c hc)

/-- A title begins with a title character. -/
theorem text_eq_cons : ∃ c rest, title.text = c :: rest ∧ Media.isTitleChar c = true := by
  obtain ⟨w, ws, hwords⟩ := List.exists_cons_of_ne_nil title.words_ne_nil
  have hw : w ∈ title.words := hwords ▸ List.mem_cons_self
  obtain ⟨c, rest, rfl⟩ := List.exists_cons_of_ne_nil (title.word_ne_nil w hw)
  refine ⟨c, rest ++ ws.flatMap (' ' :: ·), ?_, title.isTitleChar _ hw c List.mem_cons_self⟩
  rw [text, hwords, intercalate_cons, List.cons_append]

/-- A title ends with a title character. -/
theorem text_eq_concat : ∃ rest c, title.text = rest ++ [c] ∧ Media.isTitleChar c = true := by
  obtain ⟨ws, w, hwords⟩ := List.eq_nil_or_concat' title.words |>.resolve_left title.words_ne_nil
  have hw : w ∈ title.words := by simp [hwords]
  obtain ⟨rest, c, rfl⟩ := List.eq_nil_or_concat' w |>.resolve_left (title.word_ne_nil w hw)
  have hc := title.isTitleChar _ hw c (by simp)
  cases ws with
  | nil =>
      rw [List.nil_append] at hwords
      exact ⟨rest, c, by rw [text, hwords, List.intercalate_singleton], hc⟩
  | cons v ws =>
      refine ⟨v ++ ws.flatMap (' ' :: ·) ++ ' ' :: rest, c, ?_, hc⟩
      rw [text, hwords, List.cons_append, intercalate_cons, List.flatMap_append]
      simp

theorem splitWords_text : splitWords title.text = title.words :=
  splitWords_intercalate title.word_ne_nil fun w hw c hc =>
    not_isSpace (title.isTitleChar w hw c hc)

/-- What stands after blanks begins with a later word. -/
theorem after_spaces {x sp v : Path} (h : x ++ sp ++ v = title.text) (hne : sp ≠ [])
    (hsp : ∀ c ∈ sp, isSpace c = true) :
    ∃ w ∈ title.words.tail, ∃ rest, v = w ++ rest ∧ (rest = [] ∨ ∃ rest', rest = ' ' :: rest') := by
  obtain ⟨w, ws, hwords⟩ := List.exists_cons_of_ne_nil title.words_ne_nil
  obtain ⟨c, sp, rfl⟩ := List.exists_cons_of_ne_nil hne
  have hblank : ∀ w ∈ title.words, ' ' ∉ w := fun w hw hmem =>
    ne_blank (title.isTitleChar w hw ' ' hmem) rfl
  have hc : c = ' ' := by
    refine (title.mem_text (c := c) (by simp [← h])).resolve_left fun hchar => ?_
    have hspace := hsp c List.mem_cons_self
    rw [not_isSpace hchar] at hspace
    cases hspace
  rw [text, hwords, intercalate_cons, hc, List.append_assoc, List.cons_append] at h
  obtain ⟨later, hlater, rest, hrest, hend⟩ := after_blank (hblank w (hwords ▸ List.mem_cons_self))
    (fun v hv => hblank v (hwords ▸ List.mem_cons_of_mem w hv)) h
  rw [hwords, List.tail_cons]
  cases sp with
  | nil => exact ⟨later, hlater, rest, hrest, hend⟩
  | cons d sp =>
      -- no word begins with a second blank
      have hmem : later ∈ title.words := hwords ▸ List.mem_cons_of_mem w hlater
      obtain ⟨e, word, rfl⟩ := List.exists_cons_of_ne_nil (title.word_ne_nil later hmem)
      have hchar := title.isTitleChar _ hmem e List.mem_cons_self
      have hspace := hsp d (by simp)
      rw [List.cons_append, List.cons_append] at hrest
      rw [(List.cons.inj hrest).1, not_isSpace hchar] at hspace
      cases hspace

end Title

section Cleaning

/-- What is stripped on both sides. -/
theorem strip_append {p : Char → Bool} {s x : Path} {c d : Char} {rest rest' : Path}
    (hx : ∀ e ∈ x, p e = true) (hhead : s = c :: rest) (hc : p c = false) (hlast : s = rest' ++ [d])
    (hd : p d = false) : (((s ++ x).dropWhile p).reverse.dropWhile p).reverse = s := by
  have hleft : (s ++ x).dropWhile p = s ++ x := by
    rw [hhead, List.cons_append, List.dropWhile_cons, hc, if_neg Bool.false_ne_true]
  have hright : ∀ y : Path, (∀ e ∈ y, p e = true) → (y ++ s.reverse).dropWhile p = s.reverse := by
    intro y hy
    rw [List.dropWhile_append_of_pos hy, hlast, List.reverse_append, List.reverse_singleton,
      List.singleton_append, List.dropWhile_cons, hd, if_neg Bool.false_ne_true]
  rw [hleft, List.reverse_append, hright _ fun e he => hx e (List.mem_reverse.mp he),
    List.reverse_reverse]

theorem mem_strip {p : Char → Bool} {s : Path} {c : Char}
    (hc : c ∈ ((s.dropWhile p).reverse.dropWhile p).reverse) : c ∈ s := by
  have hinner := (List.dropWhile_sublist p).subset (List.mem_reverse.mp hc)
  exact (List.dropWhile_sublist p).subset (List.mem_reverse.mp hinner)

theorem mem_splitOnP {p : Char → Bool} {s w : Path} {c : Char} (hw : w ∈ s.splitOnP p)
    (hc : c ∈ w) : c ∈ s := by
  induction s generalizing w with
  | nil =>
      rw [List.splitOnP_nil, List.mem_singleton] at hw
      rw [hw] at hc
      exact hc
  | cons d s ih =>
      rw [List.splitOnP_cons_eq_if_modifyHead] at hw
      split_ifs at hw
      · rcases List.mem_cons.mp hw with rfl | hw
        · cases hc
        · exact List.mem_cons_of_mem d (ih hw hc)
      · cases hsplit : s.splitOnP p with
        | nil => exact absurd hsplit (List.splitOnP_ne_nil p s)
        | cons v vs =>
            rw [hsplit, List.modifyHead_cons] at hw
            rcases List.mem_cons.mp hw with rfl | hw
            · rcases List.mem_cons.mp hc with rfl | hc
              · exact List.mem_cons_self
              · exact List.mem_cons_of_mem d (ih (hsplit ▸ List.mem_cons_self) hc)
            · exact List.mem_cons_of_mem d (ih (hsplit ▸ List.mem_cons_of_mem v hw) hc)

theorem mem_intercalate {ws : List Path} {c : Char} (hc : c ∈ [' '].intercalate ws) :
    c = ' ' ∨ ∃ w ∈ ws, c ∈ w := by
  cases ws with
  | nil => cases hc
  | cons w ws =>
      rw [intercalate_cons, List.mem_append, List.mem_flatMap] at hc
      rcases hc with hc | ⟨v, hv, hc⟩
      · exact .inr ⟨w, List.mem_cons_self, hc⟩
      · rcases List.mem_cons.mp hc with rfl | hc
        · exact .inl rfl
        · exact .inr ⟨v, List.mem_cons_of_mem w hv, hc⟩

theorem mem_withoutGroup {s : Path} {c : Char} (hc : c ∈ withoutGroup s) : c ∈ s := by
  rw [withoutGroup] at hc
  dsimp only at hc
  split_ifs at hc
  · exact hc
  · exact (List.dropWhile_sublist _).subset (List.mem_of_mem_tail hc)
  · exact hc

/-- The cleaning of a title adds nothing but blanks. -/
theorem mem_postProcessTitle {s : Path} {c : Char} (hc : c ∈ postProcessTitle s) (hne : c ≠ ' ') :
    c ∈ s := by
  rw [postProcessTitle] at hc
  split_ifs at hc
  · cases hc
  · rcases mem_intercalate (mem_strip hc) with hblank | ⟨w, hw, hcw⟩
    · exact absurd hblank hne
    · have hsplit := mem_splitOnP (List.mem_filter.mp hw).1 hcw
      have hclosing := (remove_sublist _ _).subset ((remove_sublist _ _).subset hsplit)
      have hfold : ∀ (rs : List Pattern) (t : Path),
          (rs.foldl (fun title suffix => (fromSuffix suffix).remove title) t).Sublist t := by
        intro rs
        induction rs with
        | nil => exact fun t => List.Sublist.refl t
        | cons r rs ih => exact fun t => (ih _).trans (remove_sublist _ _)
      have hmap := mem_strip ((hfold _ _).subset hclosing)
      obtain ⟨d, hd, hdc⟩ := List.mem_map.mp hmap
      split_ifs at hdc
      · exact absurd hdc.symm hne
      · exact mem_withoutGroup (hdc ▸ hd)

variable (title : Title)

/-- Titles are valid names. -/
theorem sanitizeFilename_text (hlength : title.text.length ≤ 200) :
    sanitizeFilename {} title.text = title.text := by
  have hmap : (title.text.map fun c => if isIllegal c then '_' else c) = title.text := by
    rw [List.map_congr_left (g := id) fun c hc => ?_, List.map_id]
    have hlegal : isIllegal c = false := by
      rcases title.mem_text hc with hchar | rfl
      · exact not_isOneOf hchar (by decide)
      · rfl
    rw [hlegal, if_neg Bool.false_ne_true, id]
  have hstrip : stripEnds title.text = title.text := by
    obtain ⟨c, rest, hhead, hc⟩ := title.text_eq_cons
    obtain ⟨rest', d, hlast, hd⟩ := title.text_eq_concat
    have hends : ∀ c, Media.isTitleChar c = true → isOneOf [' ', '.'] c = false := by
      intro c hc
      rw [isOneOf_eq_false]
      intro hmem
      rcases List.mem_cons.mp hmem with rfl | hmem
      · cases hc
      · rw [List.mem_singleton] at hmem
        rw [hmem] at hc
        cases hc
    have h := strip_append (p := isOneOf [' ', '.']) (x := []) (by simp) hhead (hends c hc) hlast
      (hends d hd)
    rw [List.append_nil] at h
    exact h
  have hne : title.text ≠ [] := by
    obtain ⟨c, rest, hhead, -⟩ := title.text_eq_cons
    rw [hhead]
    simp
  rw [sanitizeFilename, if_neg (by simp), hmap, hstrip]
  have hshort : ¬ 200 < title.text.length := by omega
  simp only
  rw [if_neg hshort, if_neg hne]

/-- A suffix of the list begins a word. -/
def TagLed (w : Path) : Prop := ∃ suffix ∈ suffixes, run suffix w ≠ []

theorem suffixes_avoid : ∀ suffix ∈ suffixes, avoids ' ' suffix = true := by decide

/-- Nothing is cut from a title in which no later word begins with a suffix. -/
theorem remove_fromSuffix {suffix : Pattern} (hmem : suffix ∈ suffixes)
    (htags : ∀ w ∈ title.words.tail, ¬ TagLed w) :
    (fromSuffix suffix).remove title.text = title.text := by
  apply remove_of_absent
  rintro u ⟨x, hx⟩
  have hfirst : run (seq (oneOrMore isSpace) suffix) u = [] := by
    apply run_seq_of_right
    intro m hm
    have hsplit := taken_append_rest hm
    have hne : m.taken ≠ [] := List.ne_nil_of_length_pos (length_taken hm)
    rw [← hsplit, ← List.append_assoc] at hx
    obtain ⟨w, hw, rest, hrest, hend⟩ := title.after_spaces hx hne fun c hc => mem_taken hm hc
    have hword : run suffix w = [] := by
      by_contra hrun
      exact htags w hw ⟨suffix, hmem, hrun⟩
    rw [hrest]
    rcases hend with rfl | ⟨rest', rfl⟩
    · rw [List.append_nil, hword]
    · rw [run_append_of_avoids (suffixes_avoid suffix hmem), hword]
      rfl
  exact run_seq_of_left (run_seq_of_left hfirst)

theorem remove_fromYear : fromYear.remove title.text = title.text := by
  apply remove_of_absent
  rintro u ⟨x, hx⟩
  have hfirst : run (seq (oneOrMore isSpace) (alt (seq (one (isOneOf ['1'])) (one (isOneOf ['9'])))
      (seq (one (isOneOf ['2'])) (one (isOneOf ['0']))))) u = [] := by
    apply run_seq_of_right
    intro m hm
    have hdigit : ∀ c ∈ m.rest, isOneOf ['1'] c = false ∧ isOneOf ['2'] c = false := by
      intro c hc
      have hmem : c ∈ title.text := by
        rw [← hx, ← taken_append_rest hm]
        simp [hc]
      rcases title.mem_text hmem with hchar | rfl
      · have hdecimal := not_isDecimal hchar
        constructor
        · rw [isOneOf_eq_false, List.mem_singleton]
          rintro rfl
          cases hdecimal
        · rw [isOneOf_eq_false, List.mem_singleton]
          rintro rfl
          cases hdecimal
      · exact ⟨rfl, rfl⟩
    have hone : ∀ p : Char → Bool, (∀ c ∈ m.rest, p c = false) → run (one p) m.rest = [] := by
      intro p hp
      by_contra hrun
      obtain ⟨c, hc, hpc⟩ := starts_chars (P := fun c => p c = true) one_pos (fun _ h => h) _ hrun
      rw [hp c (List.mem_of_mem_head? hc)] at hpc
      cases hpc
    rw [run, run_seq_of_left (hone _ fun c hc => (hdigit c hc).1),
      run_seq_of_left (hone _ fun c hc => (hdigit c hc).2), List.append_nil]
  exact run_seq_of_left (run_seq_of_left (run_seq_of_left hfirst))

theorem remove_closingBrackets : closingBrackets.remove title.text = title.text := by
  apply remove_of_absent
  rintro u ⟨x, hx⟩
  have hfirst : run (one (isOneOf ['(', '['])) u = [] := by
    by_contra hrun
    obtain ⟨c, hc, hbracket⟩ :=
      starts_chars (P := fun c => isOneOf ['(', '['] c = true) one_pos (fun _ h => h) u hrun
    have hmem : c ∈ title.text := by
      rw [← hx]
      exact List.mem_append_right x (List.mem_of_mem_head? hc)
    rcases title.mem_text hmem with hchar | rfl
    · rw [not_isOneOf hchar (by decide)] at hbracket
      cases hbracket
    · cases hbracket
  exact run_seq_of_left (run_seq_of_left (run_seq_of_left (run_seq_of_left hfirst)))

/-- The title is what is left of it, also before a blank. -/
theorem postProcessTitle_text {x : Path} (hx : x = [] ∨ x = [' '])
    (htags : ∀ w ∈ title.words.tail, ¬ TagLed w) :
    postProcessTitle (title.text ++ x) = title.text := by
  obtain ⟨c, rest, hhead, hc⟩ := title.text_eq_cons
  obtain ⟨rest', d, hlast, hd⟩ := title.text_eq_concat
  have hspace : ∀ e ∈ x, isSpace e = true := by
    rcases hx with rfl | rfl
    · simp
    · simp [isSpace_blank]
  have hne : title.text ++ x ≠ [] := by simp [hhead]
  have hgroup : withoutGroup (title.text ++ x) = title.text ++ x := by
    have hbracket : c ≠ '[' := by
      rintro rfl
      cases hc
    rw [withoutGroup, if_neg]
    rintro ⟨hopen, -⟩
    rw [hhead, List.cons_append, List.head?_cons] at hopen
    exact hbracket (Option.some.inj hopen)
  have hmap : ((title.text ++ x).map fun c => if isOneOf ['.', '_'] c then ' ' else c) =
      title.text ++ x := by
    rw [List.map_congr_left (g := id) fun c hc => ?_, List.map_id]
    have hkept : isOneOf ['.', '_'] c = false := by
      rcases List.mem_append.mp hc with hc | hc
      · rcases title.mem_text hc with hchar | rfl
        · exact not_isOneOf hchar (by decide)
        · rfl
      · rcases hx with rfl | rfl
        · cases hc
        · rw [List.mem_singleton.mp hc]
          rfl
    rw [hkept, if_neg Bool.false_ne_true, id]
  have hstrip : ∀ y : Path, (∀ e ∈ y, isSpace e = true) → strip (title.text ++ y) = title.text :=
    fun y hy => strip_append hy hhead (not_isSpace hc) hlast (not_isSpace hd)
  have hfold : ∀ rs ⊆ suffixes,
      rs.foldl (fun title suffix => (fromSuffix suffix).remove title) title.text = title.text := by
    intro rs hrs
    induction rs with
    | nil => rfl
    | cons r rs ih =>
        rw [List.foldl_cons, remove_fromSuffix title (hrs List.mem_cons_self) htags]
        exact ih fun r' hr' => hrs (List.mem_cons_of_mem r hr')
  have hjoin : strip ([' '].intercalate (splitWords title.text)) = title.text := by
    rw [title.splitWords_text]
    have h := hstrip [] (by simp)
    rw [List.append_nil] at h
    exact h
  rw [postProcessTitle, if_neg hne]
  simp only
  rw [hgroup, hmap, hstrip x hspace, hfold suffixes (List.Subset.refl _), remove_fromYear,
    remove_closingBrackets, hjoin]

end Cleaning

end SmartMedia.Media
