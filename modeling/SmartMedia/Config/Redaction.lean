import Mathlib.Data.List.TakeWhile
import SmartMedia.Config.SensitiveWords

/-!
# What redaction hides

A secret is hidden where an assignment of the first pattern takes it in. The second pattern puts the
token that it has found back into the text, so it hides nothing.
-/
namespace SmartMedia.Config

section Substitution
variable {matchAt : Text → Option (Text × Text)} {c : Char} {text rest taken replacement : Text}

theorem substitute_skip (k : ℕ) (text : Text) :
    substitute matchAt k text = substitute matchAt 0 (text.drop k) := by
  induction k generalizing text with
  | zero => rfl
  | succ k ih =>
      cases text with
      | nil => rfl
      | cons c text =>
          rw [substitute, ih]
          rfl

theorem substitute_none (h : matchAt (c :: text) = none) :
    substitute matchAt 0 (c :: text) = c :: substitute matchAt 0 text := by
  rw [substitute, h]

theorem substitute_some (h : matchAt (taken ++ rest) = some (replacement, rest)) (htaken : taken ≠ []) :
    substitute matchAt 0 (taken ++ rest) = replacement ++ substitute matchAt 0 rest := by
  obtain ⟨c, taken, rfl⟩ := List.exists_cons_of_ne_nil htaken
  rw [List.cons_append] at h ⊢
  rw [substitute, h]
  dsimp only
  rw [substitute_skip, List.length_append, Nat.add_sub_cancel, List.drop_left]

end Substitution

section Assignments
variable {u t : Text}

theorem dropWhile_append_fresh {p : Char → Bool} (u : Text) (ht : ∀ c ∈ t.head?, p c = false) :
    (u ++ t).dropWhile p = u.dropWhile p ++ t := by
  induction u with
  | nil =>
      cases t with
      | nil => rfl
      | cons c t => rw [List.nil_append, List.dropWhile_cons, ht c rfl]; rfl
  | cons d u ih =>
      rw [List.cons_append, List.dropWhile_cons, List.dropWhile_cons]
      split_ifs
      · exact ih
      · rfl

theorem takeWhile_append_fresh {p : Char → Bool} (u : Text) (ht : ∀ c ∈ t.head?, p c = false) :
    (u ++ t).takeWhile p = u.takeWhile p := by
  induction u with
  | nil =>
      cases t with
      | nil => rfl
      | cons c t => rw [List.nil_append, List.takeWhile_cons, ht c rfl]; rfl
  | cons d u ih =>
      rw [List.cons_append, List.takeWhile_cons, List.takeWhile_cons, ih]

theorem takeWhile_append_of_left {p : Char → Bool} (hu : u.dropWhile p ≠ []) (t : Text) :
    (u ++ t).takeWhile p = u.takeWhile p := by
  rw [List.takeWhile_append, if_neg]
  intro hlength
  have hsplit := congrArg List.length (List.takeWhile_append_dropWhile (p := p) (l := u))
  rw [List.length_append, hlength, Nat.add_eq_left, List.length_eq_zero_iff] at hsplit
  exact hu hsplit

theorem dropWhile_append_of_left {p : Char → Bool} (hu : u.dropWhile p ≠ []) (t : Text) :
    (u ++ t).dropWhile p = u.dropWhile p ++ t := by
  rw [List.dropWhile_append, if_neg]
  simpa using hu

theorem drop_takeWhile (p : Char → Bool) (text : Text) :
    text.drop (text.takeWhile p).length = text.dropWhile p := by
  have hsplit := List.takeWhile_append_dropWhile (p := p) (l := text)
  calc text.drop (text.takeWhile p).length
      = (text.takeWhile p ++ text.dropWhile p).drop (text.takeWhile p).length := by rw [hsplit]
    _ = text.dropWhile p := List.drop_left

section Key
variable {found after rest : Text} {sign : Char}

/-- After a key, a sign and what follows it. -/
theorem matchAssignment_sign (hfound : found.map plainLetter ∈ keyWords)
    (hgap : after.dropWhile Media.isSpace = sign :: rest) (hsign : sign = ':' ∨ sign = '=') :
    matchAssignment (found ++ after) =
      if (rest.dropWhile Media.isSpace).takeWhile isValueChar = [] then none
      else some (found ++ "=***".toList, (rest.dropWhile Media.isSpace).dropWhile isValueChar) := by
  rw [matchAssignment, matchKey_append hfound]
  dsimp only [bind, Option.bind]
  rw [List.length_append, Nat.add_sub_cancel, List.take_left, hgap]
  dsimp only
  rw [if_pos hsign, drop_takeWhile]

theorem matchAssignment_other (hfound : found.map plainLetter ∈ keyWords)
    (hgap : after.dropWhile Media.isSpace = sign :: rest) (hsign : ¬(sign = ':' ∨ sign = '=')) :
    matchAssignment (found ++ after) = none := by
  rw [matchAssignment, matchKey_append hfound]
  dsimp only [bind, Option.bind]
  rw [hgap]
  dsimp only
  rw [if_neg hsign]

end Key

theorem keyWord_ne_nil {found : Text} (hfound : found.map plainLetter ∈ keyWords) : found ≠ [] := by
  rintro rfl
  exact absurd hfound (by decide)

/-- Where the first pattern matches, before a text that no key runs into: nowhere, up to a place
before that text, or over the beginning of it. -/
theorem matchAssignment_append (hu : u ≠ []) :
    (∀ t, Fresh t → matchAssignment (u ++ t) = none) ∨
    (∃ replacement taken after, taken ≠ [] ∧ u = taken ++ after ∧
      ∀ t, Fresh t → matchAssignment (u ++ t) = some (replacement, after ++ t)) ∨
    ∃ replacement, ∀ t, Fresh t →
      matchAssignment (u ++ t) = some (replacement, t.dropWhile isValueChar) := by
  by_cases hkey : ∃ found after, found.map plainLetter ∈ keyWords ∧ u = found ++ after
  swap
  · left
    intro t ht
    have hnone : matchKey (u ++ t) = none := by
      by_contra hsome
      obtain ⟨rest, hrest⟩ := Option.ne_none_iff_exists'.mp hsome
      obtain ⟨found, after, hfound, hsplit, -⟩ := ht.matchKey_append hu hrest
      exact hkey ⟨found, after, hfound, hsplit⟩
    rw [matchAssignment, hnone]
    rfl
  obtain ⟨found, after, hfound, rfl⟩ := hkey
  have hspace : ∀ t, Fresh t → ∀ c ∈ t.head?, Media.isSpace c = false := by
    intro t ht c hc
    obtain ⟨d, tail, rfl, hvalue, -, -⟩ := ht.head
    obtain rfl : d = c := by simpa using hc
    rw [isValueChar, Bool.and_eq_true, Bool.and_eq_true] at hvalue
    simpa using hvalue.1.1
  have hgap : ∀ t, Fresh t →
      (after ++ t).dropWhile Media.isSpace = after.dropWhile Media.isSpace ++ t := fun t ht =>
    dropWhile_append_fresh after (hspace t ht)
  cases hafter : after.dropWhile Media.isSpace with
  | nil =>
      left
      intro t ht
      obtain ⟨c, tail, rfl, -, hcolon, hequals⟩ := ht.head
      have hhead := hgap _ ht
      rw [hafter, List.nil_append] at hhead
      rw [List.append_assoc]
      exact matchAssignment_other hfound hhead (not_or.mpr ⟨hcolon, hequals⟩)
  | cons sign rest =>
      by_cases hsign : sign = ':' ∨ sign = '='
      swap
      · left
        intro t ht
        have hhead := hgap t ht
        rw [hafter, List.cons_append] at hhead
        rw [List.append_assoc]
        exact matchAssignment_other hfound hhead hsign
      have hvalue : ∀ t, Fresh t → matchAssignment (found ++ after ++ t) =
          if (rest.dropWhile Media.isSpace ++ t).takeWhile isValueChar = [] then none
          else some (found ++ "=***".toList,
            (rest.dropWhile Media.isSpace ++ t).dropWhile isValueChar) := by
        intro t ht
        have hhead := hgap t ht
        rw [hafter, List.cons_append] at hhead
        rw [List.append_assoc, matchAssignment_sign hfound hhead hsign,
          dropWhile_append_fresh rest (hspace t ht)]
      by_cases hall : ∀ c ∈ rest.dropWhile Media.isSpace, isValueChar c = true
      · right
        right
        refine ⟨found ++ "=***".toList, fun t ht => ?_⟩
        obtain ⟨c, tail, rfl, hc, -, -⟩ := ht.head
        rw [hvalue _ ht, List.takeWhile_append_of_pos hall, List.dropWhile_append_of_pos hall,
          if_neg]
        rw [List.takeWhile_cons, if_pos hc]
        simp
      have hleft : (rest.dropWhile Media.isSpace).dropWhile isValueChar ≠ [] := fun hnil =>
        hall (List.dropWhile_eq_nil_iff.mp hnil)
      by_cases hnone : (rest.dropWhile Media.isSpace).takeWhile isValueChar = []
      · left
        intro t ht
        rw [hvalue t ht, takeWhile_append_of_left hleft, if_pos hnone]
      · right
        left
        have hsuffix : (rest.dropWhile Media.isSpace).dropWhile isValueChar <:+ after := by
          have hrest : rest <:+ after.dropWhile Media.isSpace := hafter ▸ List.suffix_cons sign rest
          exact (List.dropWhile_suffix _).trans ((List.dropWhile_suffix _).trans
            (hrest.trans (List.dropWhile_suffix _)))
        obtain ⟨between, hbetween⟩ := hsuffix
        refine ⟨found ++ "=***".toList, found ++ between,
          (rest.dropWhile Media.isSpace).dropWhile isValueChar, ?_, ?_, fun t ht => ?_⟩
        · simp [keyWord_ne_nil hfound]
        · rw [List.append_assoc, hbetween]
        · rw [hvalue t ht, takeWhile_append_of_left hleft, dropWhile_append_of_left hleft,
            if_neg hnone]

end Assignments

section Passing
variable {before after taken t replacement : Text}

/-- Whether the matches found in a text run past its end into what follows; the number counts the
characters of a match still to be passed. -/
def runsOn (matchAt : Text → Option (Text × Text)) : ℕ → Text → Bool
  | skip, [] => 0 < skip
  | skip + 1, _ :: text => runsOn matchAt skip text
  | 0, c :: text =>
      match matchAt (c :: text ++ ['0']) with
      | none => runsOn matchAt 0 text
      | some (_, rest) => runsOn matchAt (text.length + 1 - rest.length) text

theorem runsOn_length (taken after : Text) :
    runsOn matchAssignment taken.length (taken ++ after) = runsOn matchAssignment 0 after := by
  induction taken with
  | nil => rfl
  | cons c taken ih =>
      rw [List.cons_append, List.length_cons, runsOn]
      exact ih

theorem runsOn_past (text : Text) : runsOn matchAssignment (text.length + 1) text = true := by
  induction text with
  | nil => rfl
  | cons c text ih =>
      rw [List.length_cons, runsOn]
      exact ih

theorem fresh_zero : Fresh ['0'] := ⟨['0'], [], by decide, rfl⟩

theorem runsOn_cons_none {c : Char} {text : Text} (h : matchAssignment (c :: text ++ ['0']) = none) :
    runsOn matchAssignment 0 (c :: text) = runsOn matchAssignment 0 text := by
  rw [runsOn, h]

theorem runsOn_inside (htaken : taken ≠ [])
    (h : matchAssignment (taken ++ after ++ ['0']) = some (replacement, after ++ ['0'])) :
    runsOn matchAssignment 0 (taken ++ after) = runsOn matchAssignment 0 after := by
  obtain ⟨c, taken, rfl⟩ := List.exists_cons_of_ne_nil htaken
  rw [List.cons_append] at h ⊢
  rw [runsOn, h]
  dsimp only
  have hskip : (taken ++ after).length + 1 - (after ++ ['0']).length = taken.length := by
    simp
  rw [hskip, runsOn_length]

theorem runsOn_over (hbefore : before ≠ [])
    (h : matchAssignment (before ++ ['0']) = some (replacement, ['0'].dropWhile isValueChar)) :
    runsOn matchAssignment 0 before = true := by
  obtain ⟨c, text, rfl⟩ := List.exists_cons_of_ne_nil hbefore
  rw [runsOn, h]
  exact runsOn_past text

/-- What the first pattern makes of a text before one that no key runs into. -/
theorem substitute_before (before : Text) :
    ∃ out, ∀ t, Fresh t →
      substitute matchAssignment 0 (before ++ t) =
        out ++ substitute matchAssignment 0
          (if runsOn matchAssignment 0 before then t.dropWhile isValueChar else t) := by
  induction hn : before.length using Nat.strong_induction_on generalizing before with
  | h n ih =>
      cases before with
      | nil => exact ⟨[], fun t _ => rfl⟩
      | cons c text =>
          rcases matchAssignment_append (List.cons_ne_nil c text) with
            hnone | ⟨replacement, taken, after, htaken, hsplit, hsome⟩ | ⟨replacement, hsome⟩
          · obtain ⟨out, hout⟩ := ih text.length (by simp [← hn]) text rfl
            refine ⟨c :: out, fun t ht => ?_⟩
            have hat := hnone t ht
            rw [List.cons_append] at hat ⊢
            rw [runsOn_cons_none (hnone _ fresh_zero), substitute_none hat, hout t ht]
            rfl
          · have hlength : after.length < n := by
              have hpos := List.length_pos_iff.mpr htaken
              rw [← hn, hsplit, List.length_append]
              omega
            obtain ⟨out, hout⟩ := ih after.length hlength after rfl
            rw [hsplit] at hsome ⊢
            refine ⟨replacement ++ out, fun t ht => ?_⟩
            have hat := hsome t ht
            rw [List.append_assoc] at hat
            rw [runsOn_inside htaken (hsome _ fresh_zero), List.append_assoc,
              substitute_some hat htaken, hout t ht, List.append_assoc]
          · refine ⟨replacement, fun t ht => ?_⟩
            rw [runsOn_over (List.cons_ne_nil c text) (hsome _ fresh_zero), if_pos rfl]
            have htail : c :: text ++ t =
                (c :: text ++ t.takeWhile isValueChar) ++ t.dropWhile isValueChar := by
              rw [List.append_assoc, List.takeWhile_append_dropWhile]
            have hat := hsome t ht
            rw [htail] at hat ⊢
            exact substitute_some hat (by simp)

end Passing

section Tokens
variable {u rest : Text} {d : Char}

/-- Digits that no word of the patterns has. -/
def digits : List Char := ['0', '1']

theorem of_mem_digits (hd : d ∈ digits) :
    Media.isSpace d = false ∧ isTokenChar d = true ∧ d ≠ '=' ∧ plainLetter d ∉ "bearer".toList := by
  rw [digits, List.mem_cons, List.mem_singleton] at hd
  rcases hd with rfl | rfl
  · decide
  · decide

theorem matchBearer_found {found : Text} (hfound : found.map plainLetter = "bearer".toList)
    (after : Text) :
    matchBearer (found ++ after) =
      if after.head?.any Media.isSpace = false then none
      else if (after.dropWhile Media.isSpace).takeWhile isTokenChar = [] then none
      else some ((after.dropWhile Media.isSpace).takeWhile isTokenChar ++
          ((after.dropWhile Media.isSpace).dropWhile isTokenChar).takeWhile (· = '=') ++
          "=***".toList,
        ((after.dropWhile Media.isSpace).dropWhile isTokenChar).dropWhile (· = '=')) := by
  have hword : matchWord "bearer".toList (found ++ after) = some after :=
    (matchWord_eq_some_iff (by decide)).mpr ⟨found, hfound, rfl⟩
  rw [matchBearer, hword]
  dsimp only [bind, Option.bind]
  split_ifs
  · rfl
  · rfl
  · simp only [drop_takeWhile]
    rfl

/-- Where the second pattern matches, before a digit: nowhere, up to a place before it, or over the
digit, which is then put back. -/
theorem matchBearer_append (hu : u ≠ []) (rest : Text) :
    (∀ d ∈ digits, matchBearer (u ++ d :: rest) = none) ∨
    (∃ replacement taken after, taken ≠ [] ∧ u = taken ++ after ∧
      ∀ d ∈ digits, matchBearer (u ++ d :: rest) = some (replacement, after ++ d :: rest)) ∨
    ∃ before between passed after, rest = passed ++ after ∧ ∀ d ∈ digits,
      matchBearer (u ++ d :: rest) = some (before ++ d :: between, after) := by
  by_cases hword : ∃ found after, found.map plainLetter = "bearer".toList ∧ u = found ++ after
  swap
  · left
    intro d hd
    have hnone : matchWord "bearer".toList (u ++ d :: rest) = none := by
      by_contra hsome
      obtain ⟨rest', hrest⟩ := Option.ne_none_iff_exists'.mp hsome
      obtain ⟨found, hfound, htext⟩ := (matchWord_eq_some_iff (by decide)).mp hrest
      rcases List.append_eq_append_iff.mp htext with ⟨beyond, hover, hafter⟩ | ⟨after, hafter, -⟩
      · cases beyond with
        | nil => exact hword ⟨found, [], hfound, by rw [hover, List.append_nil, List.append_nil]⟩
        | cons c beyond =>
            obtain rfl : d = c := (List.cons.inj hafter).1
            apply (of_mem_digits hd).2.2.2
            rw [← hfound, hover]
            exact List.mem_map_of_mem (by simp)
      · exact hword ⟨found, after, hfound, hafter⟩
    rw [matchBearer, hnone]
    rfl
  obtain ⟨found, after, hfound, rfl⟩ := hword
  have hspace : ∀ d ∈ digits, ∀ c ∈ (d :: rest).head?, Media.isSpace c = false := by
    intro d hd c hc
    obtain rfl : d = c := by simpa using hc
    exact (of_mem_digits hd).1
  have hequals : ∀ d ∈ digits, ∀ c ∈ (d :: rest).head?, decide (c = '=') = false := by
    intro d hd c hc
    obtain rfl : d = c := by simpa using hc
    exact decide_eq_false (of_mem_digits hd).2.2.1
  have hhead : ∀ d ∈ digits,
      (after ++ d :: rest).head?.any Media.isSpace = after.head?.any Media.isSpace := by
    intro d hd
    cases after with
    | nil => simpa using (of_mem_digits hd).1
    | cons c after => rfl
  by_cases hgap : after.head?.any Media.isSpace = false
  · left
    intro d hd
    rw [List.append_assoc, matchBearer_found hfound, hhead d hd, if_pos hgap]
  generalize hbody : after.dropWhile Media.isSpace = body
  have hrun : ∀ d ∈ digits, matchBearer (found ++ after ++ d :: rest) =
      if (body ++ d :: rest).takeWhile isTokenChar = [] then none
      else some ((body ++ d :: rest).takeWhile isTokenChar ++
          ((body ++ d :: rest).dropWhile isTokenChar).takeWhile (· = '=') ++ "=***".toList,
        ((body ++ d :: rest).dropWhile isTokenChar).dropWhile (· = '=')) := by
    intro d hd
    rw [List.append_assoc, matchBearer_found hfound, hhead d hd, if_neg hgap,
      dropWhile_append_fresh _ (hspace d hd), hbody]
  by_cases hall : ∀ c ∈ body, isTokenChar c = true
  · right
    right
    obtain ⟨passed, hpassed⟩ : (rest.dropWhile isTokenChar).dropWhile (· = '=') <:+ rest :=
      (List.dropWhile_suffix _).trans (List.dropWhile_suffix _)
    refine ⟨body, rest.takeWhile isTokenChar ++
      ((rest.dropWhile isTokenChar).takeWhile (· = '=') ++ "=***".toList), passed,
      (rest.dropWhile isTokenChar).dropWhile (· = '='), hpassed.symm, fun d hd => ?_⟩
    have htoken := (of_mem_digits hd).2.1
    rw [hrun d hd, List.takeWhile_append_of_pos hall, List.dropWhile_append_of_pos hall,
      List.takeWhile_cons, if_pos htoken, List.dropWhile_cons, if_pos htoken, if_neg (by simp)]
    simp
  · have hleft : body.dropWhile isTokenChar ≠ [] := fun hnil =>
      hall (List.dropWhile_eq_nil_iff.mp hnil)
    by_cases hnone : body.takeWhile isTokenChar = []
    · left
      intro d hd
      rw [hrun d hd, takeWhile_append_of_left hleft, if_pos hnone]
    · right
      left
      obtain ⟨between, hbetween⟩ : (body.dropWhile isTokenChar).dropWhile (· = '=') <:+ after :=
        (List.dropWhile_suffix _).trans ((List.dropWhile_suffix _).trans
          (hbody ▸ List.dropWhile_suffix _))
      refine ⟨body.takeWhile isTokenChar ++ (body.dropWhile isTokenChar).takeWhile (· = '=') ++
        "=***".toList, found ++ between, (body.dropWhile isTokenChar).dropWhile (· = '='), ?_, ?_,
        fun d hd => ?_⟩
      · intro hnil
        rw [(List.append_eq_nil_iff.mp hnil).1] at hfound
        cases hfound
      · rw [List.append_assoc, hbetween]
      · rw [hrun d hd, takeWhile_append_of_left hleft, dropWhile_append_of_left hleft, if_neg hnone,
          takeWhile_append_fresh _ (hequals d hd), dropWhile_append_fresh _ (hequals d hd)]

/-- The second pattern hides no digit. -/
theorem substitute_matchBearer_ne (before rest : Text) :
    substitute matchBearer 0 (before ++ '0' :: rest) ≠
      substitute matchBearer 0 (before ++ '1' :: rest) := by
  have hzero : '0' ∈ digits := by decide
  have hone : '1' ∈ digits := by decide
  induction hn : before.length using Nat.strong_induction_on generalizing before with
  | h n ih =>
      cases before with
      | nil =>
          have hnone : ∀ d ∈ digits, matchBearer (d :: rest) = none := by
            intro d hd
            rw [digits, List.mem_cons, List.mem_singleton] at hd
            rcases hd with rfl | rfl
            · rfl
            · rfl
          rw [List.nil_append, List.nil_append, substitute_none (hnone _ hzero),
            substitute_none (hnone _ hone)]
          intro h
          exact absurd (List.cons.inj h).1 (by decide)
      | cons c text =>
          rcases matchBearer_append (List.cons_ne_nil c text) rest with
            hnone | ⟨replacement, taken, after, htaken, hsplit, hsome⟩ |
              ⟨before, between, passed, after, rfl, hsome⟩
          · have hzeroNone := hnone _ hzero
            have honeNone := hnone _ hone
            rw [List.cons_append] at hzeroNone honeNone ⊢
            rw [List.cons_append, substitute_none hzeroNone, substitute_none honeNone]
            intro h
            exact ih text.length (by simp [← hn]) text rfl (List.cons.inj h).2
          · have hlength : after.length < n := by
              have hpos := List.length_pos_iff.mpr htaken
              rw [← hn, hsplit, List.length_append]
              omega
            have hzeroSome := hsome _ hzero
            have honeSome := hsome _ hone
            rw [hsplit, List.append_assoc] at hzeroSome honeSome ⊢
            rw [List.append_assoc, substitute_some hzeroSome htaken,
              substitute_some honeSome htaken]
            intro h
            exact ih after.length hlength after rfl (List.append_cancel_left h)
          · have hsplit : ∀ d : Char, c :: text ++ d :: (passed ++ after) =
                (c :: text ++ d :: passed) ++ after := by simp
            have hzeroSome := hsome _ hzero
            have honeSome := hsome _ hone
            rw [hsplit] at hzeroSome honeSome ⊢
            rw [hsplit, substitute_some hzeroSome (by simp), substitute_some honeSome (by simp)]
            intro h
            have hcopies := List.append_cancel_right h
            exact absurd (List.cons.inj (List.append_cancel_left hcopies)).1 (by decide)

end Tokens

section Secrets

theorem toNat_of_isTokenChar {c : Char} (h : isTokenChar c = true) :
    c.toNat = 43 ∨ 45 ≤ c.toNat ∧ c.toNat ≤ 57 ∨ 65 ≤ c.toNat ∧ c.toNat ≤ 126 ∨
      c.toNat = 0x130 ∨ c.toNat = 0x131 ∨ c.toNat = 0x17f ∨ c.toNat = 0x212a := by
  rw [isTokenChar, Bool.or_eq_true, Bool.or_eq_true, decide_eq_true_iff, decide_eq_true_iff] at h
  rcases h with (h | h) | h
  · have hrange : 48 ≤ c.toNat ∧ c.toNat ≤ 57 ∨ 65 ≤ c.toNat ∧ c.toNat ≤ 122 := by
      unfold Char.isAlphanum Char.isAlpha Char.isUpper Char.isLower Char.isDigit at h
      simp only [Bool.or_eq_true, Bool.and_eq_true, decide_eq_true_iff, ge_iff_le,
        UInt32.le_iff_toNat_le] at h
      have hval : c.val.toNat = c.toNat := rfl
      have hconst : ('A'.val.toNat = 65 ∧ 'Z'.val.toNat = 90) ∧ 'a'.val.toNat = 97 ∧
          'z'.val.toNat = 122 ∧ '0'.val.toNat = 48 ∧ '9'.val.toNat = 57 := by decide
      omega
    omega
  · simp only [List.mem_cons, List.not_mem_nil, or_false] at h
    rcases h with rfl | rfl | rfl | rfl | rfl | rfl
    all_goals decide
  · simp only [List.mem_cons, List.not_mem_nil, or_false] at h
    rcases h with rfl | rfl | rfl | rfl
    all_goals decide

theorem isValueChar_of_isTokenChar {c : Char} (h : isTokenChar c = true) : isValueChar c = true :=
  isValueChar_of_toNat (toNat_of_isTokenChar h)

/-- A key, white space, a sign and white space. -/
structure Assignment where
  key : Text
  gap : Text
  sign : Char
  gap' : Text
  isKey : matchKey key = some []
  blank : gap.all Media.isSpace = true
  isSign : sign = ':' ∨ sign = '='
  blank' : gap'.all Media.isSpace = true

/-- The word and white space. -/
structure Bearer where
  word : Text
  space : Text
  isWord : matchWord "bearer".toList word = some []
  blank : space.all Media.isSpace = true
  nonempty : space ≠ []

/-- What a secret follows. -/
inductive Marker
  | assigned (a : Assignment)
  | assignedBearer (a : Assignment) (b : Bearer)
  | bearer (b : Bearer)

def Assignment.text (a : Assignment) : Text := a.key ++ a.gap ++ a.sign :: a.gap'

def Bearer.text (b : Bearer) : Text := b.word ++ b.space

def Marker.text : Marker → Text
  | assigned a => a.text
  | assignedBearer a b => a.text ++ b.text
  | bearer b => b.text

structure Secret (s : Text) : Prop where
  nonempty : s ≠ []
  isToken : ∀ c ∈ s, isTokenChar c = true

variable {before after : Text}

theorem Assignment.found (a : Assignment) : a.key.map plainLetter ∈ keyWords := by
  obtain ⟨found, hfound, hkey⟩ := matchKey_eq_some_iff.mp a.isKey
  rw [List.append_nil] at hkey
  rwa [hkey]

theorem Secret.isValue {s : Text} (hs : Secret s) : ∀ c ∈ s, isValueChar c = true :=
  fun c hc => isValueChar_of_isTokenChar (hs.isToken c hc)

theorem isValueChar_of_wall {word : Text} (hword : word.map plainLetter ∈ walls) :
    ∀ c ∈ word, isValueChar c = true := by
  intro c hc
  by_contra hvalue
  have hsame := plainLetter_of_separator (Bool.eq_false_iff.mpr hvalue)
  have hwalls : ∀ w ∈ walls, w.all isValueChar = true := by decide
  exact hvalue (List.all_eq_true.mp (hwalls _ hword) c (hsame ▸ List.mem_map_of_mem hc))

/-- A match at the assignment takes the secret in. -/
theorem Assignment.substitute_text (a : Assignment) {s : Text} (hne : s ≠ [])
    (hs : ∀ c ∈ s, isValueChar c = true) (after : Text) :
    substitute matchAssignment 0 (a.text ++ (s ++ after)) =
      a.key ++ "=***".toList ++ substitute matchAssignment 0 (after.dropWhile isValueChar) := by
  have hgap : (a.gap ++ a.sign :: (a.gap' ++ (s ++ after))).dropWhile Media.isSpace =
      a.sign :: (a.gap' ++ (s ++ after)) := by
    have hsign : Media.isSpace a.sign = false := by
      rcases a.isSign with h | h
      · rw [h]
        decide
      · rw [h]
        decide
    rw [List.dropWhile_append_of_pos (List.all_eq_true.mp a.blank), List.dropWhile_cons, hsign,
      if_neg Bool.false_ne_true]
  have hmatch := matchAssignment_sign a.found hgap a.isSign
  obtain ⟨c, s, rfl⟩ := List.exists_cons_of_ne_nil hne
  have hc := hs c List.mem_cons_self
  have hstart : (c :: s ++ after).dropWhile Media.isSpace = c :: s ++ after := by
    rw [isValueChar, Bool.and_eq_true, Bool.and_eq_true, Bool.not_eq_true'] at hc
    rw [List.cons_append, List.dropWhile_cons, hc.1.1, if_neg Bool.false_ne_true]
  rw [List.dropWhile_append_of_pos (List.all_eq_true.mp a.blank'), hstart,
    List.dropWhile_append_of_pos hs, if_neg] at hmatch
  · have htext : a.text ++ (c :: s ++ after) =
        a.text ++ (c :: s) ++ after.takeWhile isValueChar ++ after.dropWhile isValueChar := by
      rw [List.append_assoc, List.append_assoc, List.takeWhile_append_dropWhile]
    have hkey : a.key ++ (a.gap ++ a.sign :: (a.gap' ++ (c :: s ++ after))) =
        a.text ++ (c :: s ++ after) := by
      simp only [Assignment.text, List.append_assoc, List.cons_append]
    rw [hkey, htext] at hmatch
    rw [htext]
    apply substitute_some hmatch
    simp [Assignment.text]
  · rw [List.cons_append, List.takeWhile_cons, if_pos hc]
    simp

/-- No key begins in the text. -/
def Keyless (v : Text) : Prop :=
  ∀ u, u <:+ v → u ≠ [] → ∀ t, (∃ d ∈ digits, t.head? = some d) → matchKey (u ++ t) = none

theorem Keyless.suffix {v w : Text} (h : Keyless v) (hw : w <:+ v) : Keyless w :=
  fun u hu => h u (hu.trans hw)

theorem matchKey_of_initial {c : Char} {t : Text} (hc : plainLetter c ∉ ['a', 't', 'p', 'c']) :
    matchKey (c :: t) = none := by
  by_contra hsome
  obtain ⟨rest, hrest⟩ := Option.ne_none_iff_exists'.mp hsome
  obtain ⟨found, hfound, htext⟩ := matchKey_eq_some_iff.mp hrest
  obtain ⟨d, found, rfl⟩ := List.exists_cons_of_ne_nil (keyWord_ne_nil hfound)
  obtain ⟨rfl, -⟩ := List.cons.inj htext
  have hinitials : keyWords.all (fun w => w.head?.any (· ∈ ['a', 't', 'p', 'c'])) = true := by
    decide
  obtain ⟨x, hhead, hx⟩ := (Option.any_eq_true _ _).mp (List.all_eq_true.mp hinitials _ hfound)
  rw [decide_eq_true_iff] at hx
  rw [List.map_cons, List.head?_cons, Option.some_inj] at hhead
  exact hc (hhead ▸ hx)

theorem Keyless.cons {c : Char} {v : Text} (hc : plainLetter c ∉ ['a', 't', 'p', 'c'])
    (h : Keyless v) : Keyless (c :: v) := by
  intro u hu hne t ht
  rcases List.suffix_cons_iff.mp hu with rfl | hu
  · exact matchKey_of_initial hc
  · exact h u hu hne t ht

theorem keyless_nil : Keyless [] := fun _ hu hne => absurd (List.suffix_nil.mp hu) hne

theorem Keyless.substitute_append {v t : Text} (h : Keyless v) (ht : ∃ d ∈ digits, t.head? = some d) :
    substitute matchAssignment 0 (v ++ t) = v ++ substitute matchAssignment 0 t := by
  induction v with
  | nil => rfl
  | cons c v ih =>
      have hnone : matchAssignment (c :: (v ++ t)) = none := by
        have hkey := h (c :: v) List.suffix_rfl (List.cons_ne_nil c v) t ht
        rw [List.cons_append] at hkey
        rw [matchAssignment, hkey]
        rfl
      rw [List.cons_append, substitute_none hnone, ih (h.suffix (List.suffix_cons c v))]
      rfl

theorem Keyless.blank {b v : Text} (hb : b.all Media.isSpace = true) (h : Keyless v) :
    Keyless (b ++ v) := by
  induction b with
  | nil => exact h
  | cons c b ih =>
      rw [List.all_cons, Bool.and_eq_true] at hb
      have hvalue : isValueChar c = false := by
        rw [isValueChar, hb.1]
        rfl
      apply Keyless.cons _ (ih hb.2)
      rw [plainLetter_of_separator hvalue]
      have hinitials : ['a', 't', 'p', 'c'].all isValueChar = true := by decide
      intro hc
      rw [List.all_eq_true.mp hinitials c hc] at hvalue
      cases hvalue

theorem Assignment.keyless (a : Assignment) {v : Text} (h : Keyless v) :
    Keyless (a.gap ++ a.sign :: (a.gap' ++ v)) := by
  apply Keyless.blank a.blank
  apply Keyless.cons _ (h.blank a.blank')
  rcases a.isSign with hsign | hsign
  · rw [hsign]
    decide
  · rw [hsign]
    decide

theorem Bearer.letters (b : Bearer) : b.word.map plainLetter = "bearer".toList := by
  obtain ⟨found, hfound, hword⟩ := (matchWord_eq_some_iff (by decide)).mp b.isWord
  rw [List.append_nil] at hword
  rwa [hword]

/-- `ar` begins no key. -/
theorem Keyless.cons_cons {c d : Char} {v : Text} (hc : plainLetter c = 'a') (hd : plainLetter d = 'r')
    (h : Keyless (d :: v)) : Keyless (c :: d :: v) := by
  intro u hu hne t ht
  rcases List.suffix_cons_iff.mp hu with rfl | hu
  · by_contra hsome
    obtain ⟨rest, hrest⟩ := Option.ne_none_iff_exists'.mp hsome
    obtain ⟨found, hfound, htext⟩ := matchKey_eq_some_iff.mp hrest
    have hbegins : ∀ w ∈ keyWords, 2 ≤ w.length ∧ w.take 2 ≠ ['a', 'r'] := by decide
    obtain ⟨hlength, htwo⟩ := hbegins _ hfound
    apply htwo
    rw [List.length_map] at hlength
    have htake := congrArg (List.take 2) htext
    rw [List.take_append_of_le_length hlength] at htake
    rw [← List.map_take, ← htake]
    simp [hc, hd]
  · exact h u hu hne t ht

theorem Bearer.keyless (b : Bearer) : Keyless b.text := by
  have hspace : Keyless b.space := by
    rw [← List.append_nil b.space]
    exact keyless_nil.blank b.blank
  have hletters := b.letters
  rw [Bearer.text]
  generalize b.word = word at hletters
  obtain ⟨c₁, word, rfl, h₁, hletters⟩ := List.map_eq_cons_iff.mp hletters
  obtain ⟨c₂, word, rfl, h₂, hletters⟩ := List.map_eq_cons_iff.mp hletters
  obtain ⟨c₃, word, rfl, h₃, hletters⟩ := List.map_eq_cons_iff.mp hletters
  obtain ⟨c₄, word, rfl, h₄, hletters⟩ := List.map_eq_cons_iff.mp hletters
  obtain ⟨c₅, word, rfl, h₅, hletters⟩ := List.map_eq_cons_iff.mp hletters
  obtain ⟨c₆, word, rfl, h₆, hletters⟩ := List.map_eq_cons_iff.mp hletters
  rw [List.map_eq_nil_iff.mp hletters]
  have htail : Keyless (c₄ :: c₅ :: c₆ :: b.space) :=
    ((hspace.cons (by rw [h₆]; decide)).cons (by rw [h₅]; decide)).cons (by rw [h₄]; decide)
  exact ((htail.cons_cons h₃ h₄).cons (by rw [h₂]; decide)).cons (by rw [h₁]; decide)

theorem substitute_digit {d : Char} (hd : d ∈ digits) (after : Text) :
    substitute matchAssignment 0 (d :: after) = d :: substitute matchAssignment 0 after := by
  apply substitute_none
  have hkey : matchKey (d :: after) = none := by
    apply matchKey_of_initial
    rw [digits, List.mem_cons, List.mem_singleton] at hd
    rcases hd with rfl | rfl
    · decide
    · decide
  rw [matchAssignment, hkey]
  rfl

/-- After white space nothing is taken in. -/
theorem Keyless.substitute_dropWhile {v : Text} (h : Keyless v)
    (hspace : ∃ c ∈ v, isValueChar c = false) {d : Char} (hd : d ∈ digits) (after : Text) :
    substitute matchAssignment 0 ((v ++ d :: after).dropWhile isValueChar) =
      v.dropWhile isValueChar ++ d :: substitute matchAssignment 0 after := by
  have hleft : v.dropWhile isValueChar ≠ [] := by
    intro hnil
    obtain ⟨c, hc, hvalue⟩ := hspace
    rw [List.dropWhile_eq_nil_iff.mp hnil c hc] at hvalue
    cases hvalue
  rw [dropWhile_append_of_left hleft, (h.suffix (List.dropWhile_suffix _)).substitute_append ⟨d, hd, rfl⟩,
    substitute_digit hd]

theorem isValueChar_of_isSpace {c : Char} (h : Media.isSpace c = true) : isValueChar c = false := by
  rw [isValueChar, h]
  rfl

theorem Assignment.fresh (a : Assignment) (t : Text) : Fresh (a.text ++ t) :=
  ⟨a.key, a.gap ++ a.sign :: a.gap' ++ t, List.mem_append_left _ a.found, by
    simp only [Assignment.text, List.append_assoc]⟩

theorem Bearer.mem_walls (b : Bearer) : b.word.map plainLetter ∈ walls := by
  rw [b.letters]
  decide

theorem Bearer.fresh (b : Bearer) (t : Text) : Fresh (b.text ++ t) :=
  ⟨b.word, b.space ++ t, b.mem_walls, List.append_assoc _ _ _⟩

theorem Bearer.hasSpace (b : Bearer) : ∃ c ∈ b.space, isValueChar c = false := by
  obtain ⟨c, space, hspace⟩ := List.exists_cons_of_ne_nil b.nonempty
  have hc : c ∈ b.space := hspace ▸ List.mem_cons_self
  exact ⟨c, hc, isValueChar_of_isSpace (List.all_eq_true.mp b.blank c hc)⟩

/-- Past the key of the assignment. -/
theorem Assignment.dropWhile_text (a : Assignment) (t : Text) :
    (a.text ++ t).dropWhile isValueChar =
      (a.gap ++ a.sign :: (a.gap' ++ t)).dropWhile isValueChar := by
  rw [Assignment.text, List.append_assoc, List.append_assoc, List.cons_append,
    List.dropWhile_append_of_pos (isValueChar_of_wall (List.mem_append_left _ a.found))]

/-- Where the first pattern does not take the secret in, it leaves it as it is. -/
theorem Marker.shown (marker : Marker) (before after : Text)
    (h : ∀ a, marker = .assigned a →
      (a.gap ≠ [] ∨ a.gap' ≠ []) ∧ runsOn matchAssignment 0 before = true) :
    ∃ out, ∀ d ∈ digits, substitute matchAssignment 0 (before ++ (marker.text ++ d :: after)) =
      out ++ d :: substitute matchAssignment 0 after := by
  obtain ⟨out, hout⟩ := substitute_before before
  cases marker with
  | assigned a =>
      obtain ⟨hgaps, hruns⟩ := h a rfl
      have hspace : ∃ c ∈ a.gap ++ a.sign :: (a.gap' ++ []), isValueChar c = false := by
        rcases hgaps with hne | hne
        · obtain ⟨c, gap, hgap⟩ := List.exists_cons_of_ne_nil hne
          have hc : c ∈ a.gap := hgap ▸ List.mem_cons_self
          exact ⟨c, by simp [hc], isValueChar_of_isSpace (List.all_eq_true.mp a.blank c hc)⟩
        · obtain ⟨c, gap, hgap⟩ := List.exists_cons_of_ne_nil hne
          have hc : c ∈ a.gap' := hgap ▸ List.mem_cons_self
          exact ⟨c, by simp [hc], isValueChar_of_isSpace (List.all_eq_true.mp a.blank' c hc)⟩
      refine ⟨out ++ (a.gap ++ a.sign :: (a.gap' ++ [])).dropWhile isValueChar, fun d hd => ?_⟩
      have hdrop := (a.keyless keyless_nil).substitute_dropWhile hspace hd after
      rw [Marker.text, hout _ (a.fresh _), hruns, if_pos rfl, a.dropWhile_text, List.append_assoc,
        ← hdrop]
      simp
  | assignedBearer a b =>
      obtain ⟨c, hc, hvalue⟩ := b.hasSpace
      cases hruns : runsOn matchAssignment 0 before with
      | true =>
          have hspace : ∃ c ∈ a.gap ++ a.sign :: (a.gap' ++ b.text), isValueChar c = false :=
            ⟨c, by simp [Bearer.text, hc], hvalue⟩
          refine ⟨out ++ (a.gap ++ a.sign :: (a.gap' ++ b.text)).dropWhile isValueChar,
            fun d hd => ?_⟩
          have hdrop := (a.keyless b.keyless).substitute_dropWhile hspace hd after
          rw [Marker.text, List.append_assoc, hout _ (a.fresh _), hruns, if_pos rfl,
            a.dropWhile_text, List.append_assoc, ← hdrop]
          simp
      | false =>
          have hkeyless : Keyless b.space := b.keyless.suffix (List.suffix_append _ _)
          refine ⟨out ++ (a.key ++ "=***".toList ++ b.space.dropWhile isValueChar), fun d hd => ?_⟩
          have hdrop := hkeyless.substitute_dropWhile ⟨c, hc, hvalue⟩ hd after
          have hne : b.word ≠ [] := by
            intro hnil
            have hletters := b.letters
            rw [hnil] at hletters
            cases hletters
          have htext := a.substitute_text hne (isValueChar_of_wall b.mem_walls)
            (b.space ++ d :: after)
          rw [Marker.text, List.append_assoc, hout _ (a.fresh _), hruns, if_neg Bool.false_ne_true,
            Bearer.text, List.append_assoc, htext, hdrop]
          simp
  | bearer b =>
      obtain ⟨c, hc, hvalue⟩ := b.hasSpace
      cases hruns : runsOn matchAssignment 0 before with
      | true =>
          refine ⟨out ++ b.text.dropWhile isValueChar, fun d hd => ?_⟩
          rw [Marker.text, hout _ (b.fresh _), hruns, if_pos rfl,
            b.keyless.substitute_dropWhile ⟨c, by simp [Bearer.text, hc], hvalue⟩ hd,
            List.append_assoc]
      | false =>
          refine ⟨out ++ b.text, fun d hd => ?_⟩
          rw [Marker.text, hout _ (b.fresh _), hruns, if_neg Bool.false_ne_true,
            b.keyless.substitute_append ⟨d, hd, rfl⟩, substitute_digit hd, List.append_assoc]

/-- A secret is hidden exactly where it follows a key with its sign at once, or with white space
where no earlier match runs into the key. After `Bearer` it never is. -/
theorem redactSensitive_hides_iff (before after : Text) (marker : Marker) :
    (∀ s s', Secret s → Secret s' →
      redactSensitive (before ++ (marker.text ++ (s ++ after))) =
        redactSensitive (before ++ (marker.text ++ (s' ++ after)))) ↔
      ∃ a, marker = .assigned a ∧
        (a.gap = [] ∧ a.gap' = [] ∨ runsOn matchAssignment 0 before = false) := by
  constructor
  · intro hsame
    by_contra hnot
    obtain ⟨out, hout⟩ := marker.shown before after (by
      intro a ha
      by_contra hno
      apply hnot
      refine ⟨a, ha, ?_⟩
      rw [not_and_or, not_or, not_not, not_not, Bool.not_eq_true] at hno
      exact hno)
    have hdigit : ∀ d ∈ digits, Secret [d] := by
      intro d hd
      refine ⟨List.cons_ne_nil d [], fun c hc => ?_⟩
      rw [List.mem_singleton.mp hc]
      exact (of_mem_digits hd).2.1
    have hzero : '0' ∈ digits := by decide
    have hone : '1' ∈ digits := by decide
    have heq := hsame ['0'] ['1'] (hdigit _ hzero) (hdigit _ hone)
    rw [redactSensitive, redactSensitive, List.singleton_append, List.singleton_append,
      hout _ hzero, hout _ hone] at heq
    exact substitute_matchBearer_ne _ _ heq
  · rintro ⟨a, rfl, h⟩ s s' hs hs'
    obtain ⟨out, hout⟩ := substitute_before before
    have hhidden : ∀ s, Secret s → substitute matchAssignment 0
        (before ++ (a.text ++ (s ++ after))) =
        out ++ (if runsOn matchAssignment 0 before then [] else a.key ++ "=***".toList) ++
          substitute matchAssignment 0 (after.dropWhile isValueChar) := by
      intro s hs
      rw [hout _ (a.fresh _)]
      cases hruns : runsOn matchAssignment 0 before with
      | true =>
          obtain ⟨hgap, hgap'⟩ : a.gap = [] ∧ a.gap' = [] := by
            rcases h with h | h
            · exact h
            · rw [h] at hruns
              cases hruns
          have hsign : isValueChar a.sign = true := by
            rcases a.isSign with hsign | hsign
            · rw [hsign]
              decide
            · rw [hsign]
              decide
          rw [if_pos rfl, if_pos rfl, a.dropWhile_text, hgap, hgap', List.nil_append, List.nil_append,
            List.dropWhile_cons, if_pos hsign, List.dropWhile_append_of_pos hs.isValue,
            List.append_nil]
      | false =>
          rw [if_neg Bool.false_ne_true, if_neg Bool.false_ne_true,
            a.substitute_text hs.nonempty hs.isValue, List.append_assoc out]
    rw [redactSensitive, redactSensitive, Marker.text, hhidden s hs, hhidden s' hs']

/-- The token is the group that is put back, and after a key only the word before it is taken in. -/
theorem bearer_token_shown :
    Secret "abc".toList ∧ Secret "xyz".toList ∧
      redactSensitive "Bearer abc".toList = "abc=***".toList ∧
      redactSensitive "Bearer xyz".toList = "xyz=***".toList ∧
      redactSensitive "Authorization: Bearer abc".toList = "Authorization=*** abc".toList := by
  refine ⟨⟨by decide, ?_⟩, ⟨by decide, ?_⟩, by decide, by decide, by decide⟩
  · exact List.all_eq_true.mp (by decide : "abc".toList.all isTokenChar = true)
  · exact List.all_eq_true.mp (by decide : "xyz".toList.all isTokenChar = true)

end Secrets

end SmartMedia.Config
