import SmartMedia.Config.Masking
import SmartMedia.Library.PythonText

/-!
# The words before a secret

The keys of the first pattern are seven words up to case. No end of one is the beginning of another
or of `bearer`, so a search that has passed into a text finds the words that begin there.
-/
namespace SmartMedia.Config
open PythonText

section Letters
variable {c x : Char} {word text rest : Text}

/-- The lower case letter that a character is equal to up to case. -/
def plainLetter (c : Char) : Char :=
  if c = '\u212a' then 'k'
  else if c = '\u017f' then 's'
  else if c = '\u0130' ∨ c = '\u0131' then 'i'
  else c.toLower

theorem sameLetter_iff (hx : x.toNat < 128) : sameLetter x c = true ↔ plainLetter c = x := by
  have hne : ∀ c : Char, 128 ≤ c.toNat → c ≠ x := by
    rintro c hc rfl
    omega
  have hsame : sameLetter x c = true ↔ c.toLower = x ∨ x = 'k' ∧ c = '\u212a' ∨
      x = 's' ∧ c = '\u017f' ∨ x = 'i' ∧ (c = '\u0130' ∨ c = '\u0131') := by
    simp only [sameLetter, Bool.or_eq_true, Bool.and_eq_true, decide_eq_true_iff, or_assoc]
  rw [hsame, plainLetter]
  split_ifs with hk hs hi
  · subst hk
    rw [or_iff_right (hne _ (by decide))]
    constructor
    · rintro (⟨rfl, -⟩ | ⟨-, h⟩ | ⟨-, h | h⟩)
      · rfl
      · exact absurd h (by decide)
      · exact absurd h (by decide)
      · exact absurd h (by decide)
    · rintro rfl
      exact .inl ⟨rfl, rfl⟩
  · subst hs
    rw [or_iff_right (hne _ (by decide))]
    constructor
    · rintro (⟨-, h⟩ | ⟨rfl, -⟩ | ⟨-, h | h⟩)
      · exact absurd h hk
      · rfl
      · exact absurd h (by decide)
      · exact absurd h (by decide)
    · rintro rfl
      exact .inr (.inl ⟨rfl, rfl⟩)
  · have hlower : c.toLower ≠ x := by
      rcases hi with rfl | rfl
      · exact hne _ (by decide)
      · exact hne _ (by decide)
    rw [or_iff_right hlower]
    constructor
    · rintro (⟨-, h⟩ | ⟨-, h⟩ | ⟨rfl, -⟩)
      · exact absurd h hk
      · exact absurd h hs
      · rfl
    · rintro rfl
      exact .inr (.inr ⟨rfl, hi⟩)
  · constructor
    · rintro (h | ⟨-, h⟩ | ⟨-, h⟩ | ⟨-, h⟩)
      · exact h
      · exact absurd h hk
      · exact absurd h hs
      · exact absurd h hi
    · exact .inl

theorem matchWord_eq_some_iff (hword : word.all (fun x => x.toNat < 128) = true) :
    matchWord word text = some rest ↔
      ∃ found, found.map plainLetter = word ∧ text = found ++ rest := by
  induction word generalizing text with
  | nil =>
      rw [matchWord, Option.some_inj]
      constructor
      · rintro rfl
        exact ⟨[], rfl, rfl⟩
      · rintro ⟨found, hfound, rfl⟩
        rw [List.map_eq_nil_iff.mp hfound, List.nil_append]
  | cons x word ih =>
      rw [List.all_cons, Bool.and_eq_true, decide_eq_true_iff] at hword
      cases text with
      | nil =>
          rw [matchWord]
          constructor
          · intro h
            cases h
          · rintro ⟨found, hfound, htext⟩
            rw [(List.append_eq_nil_iff.mp htext.symm).1] at hfound
            cases hfound
      | cons c text =>
          rw [matchWord]
          split_ifs with hc
          · rw [ih hword.2]
            constructor
            · rintro ⟨found, rfl, rfl⟩
              exact ⟨c :: found, by rw [List.map_cons, (sameLetter_iff hword.1).mp hc], rfl⟩
            · rintro ⟨found, hfound, htext⟩
              cases found with
              | nil => cases hfound
              | cons d found =>
                  rw [List.cons_append, List.cons.injEq] at htext
                  rw [List.map_cons, List.cons.injEq] at hfound
                  exact ⟨found, hfound.2, htext.2⟩
          · constructor
            · intro h
              cases h
            · rintro ⟨found, hfound, htext⟩
              cases found with
              | nil => cases hfound
              | cons d found =>
                  rw [List.cons_append, List.cons.injEq] at htext
                  rw [List.map_cons, List.cons.injEq, ← htext.1] at hfound
                  exact absurd ((sameLetter_iff hword.1).mpr hfound.1) hc

/-- Only letters have other cases. -/
theorem eq_of_plainLetter (hx : x.toNat < 97) (h : plainLetter c = x) : c = x := by
  have hne : ∀ l : Char, 97 ≤ l.toNat → l ≠ x := by
    rintro l hl rfl
    omega
  rw [plainLetter] at h
  split_ifs at h
  · exact absurd h (hne _ (by decide))
  · exact absurd h (hne _ (by decide))
  · exact absurd h (hne _ (by decide))
  · rcases toLower_eq c with hsame | ⟨hlow, -, hlower⟩
    · exact hsame.symm.trans h
    · exact absurd h (hne _ (by omega))

theorem isValueChar_of_toNat (h : c.toNat = 43 ∨ 45 ≤ c.toNat ∧ c.toNat ≤ 57 ∨
    65 ≤ c.toNat ∧ c.toNat ≤ 126 ∨ c.toNat = 0x130 ∨ c.toNat = 0x131 ∨ c.toNat = 0x17f ∨
    c.toNat = 0x212a) : isValueChar c = true := by
  have hspace : Media.isSpace c = false := by
    simp only [Media.isSpace, Bool.or_eq_false_iff, Bool.and_eq_false_iff,
      decide_eq_false_iff_not]
    omega
  have hcomma : c ≠ ',' := by
    rintro rfl
    exact absurd h (by decide)
  have hsemicolon : c ≠ ';' := by
    rintro rfl
    exact absurd h (by decide)
  rw [isValueChar, hspace]
  simp [hcomma, hsemicolon]

/-- What separates values is no letter. -/
theorem plainLetter_of_separator (h : isValueChar c = false) : plainLetter c = c := by
  have hne : ∀ l : Char, isValueChar l = true → c ≠ l := by
    rintro l hl rfl
    rw [h] at hl
    cases hl
  rw [plainLetter, if_neg (hne _ (by decide)), if_neg (hne _ (by decide)),
    if_neg (not_or.mpr ⟨hne _ (by decide), hne _ (by decide)⟩)]
  rcases toLower_eq c with hsame | ⟨hlow, hhigh, -⟩
  · exact hsame
  · exact absurd rfl (hne c (isValueChar_of_toNat (by omega)))

end Letters

section Keys
variable {c : Char} {text rest t u : Text}

/-- What the first group of the first pattern matches, up to case. -/
def keyWords : List Text :=
  ["apikey", "api_key", "api-key", "token", "password", "cookie", "authorization"].map String.toList

theorem matchApiKey_eq_some_iff :
    matchApiKey text = some rest ↔
      ∃ found, found.map plainLetter ∈ ["apikey", "api_key", "api-key"].map String.toList ∧
        text = found ++ rest := by
  have hapi : ∀ rest, matchWord "api".toList text = some rest ↔
      ∃ found, found.map plainLetter = "api".toList ∧ text = found ++ rest := fun rest =>
    matchWord_eq_some_iff (by decide)
  have hkey : ∀ text, matchWord "key".toList text = some rest ↔
      ∃ found, found.map plainLetter = "key".toList ∧ text = found ++ rest := fun text =>
    matchWord_eq_some_iff (by decide)
  constructor
  · intro h
    rw [matchApiKey] at h
    split at h
    · next c after hsome =>
        obtain ⟨api, hfound, htext⟩ := (hapi _).mp hsome
        split_ifs at h with hc
        · obtain ⟨key, hkeyFound, rfl⟩ := (hkey _).mp h
          refine ⟨api ++ c :: key, ?_, by simp [htext]⟩
          have hword : (api ++ c :: key).map plainLetter =
              "api".toList ++ plainLetter c :: "key".toList := by
            rw [List.map_append, List.map_cons, hfound, hkeyFound]
          rw [hword]
          rcases hc with rfl | rfl
          · decide
          · decide
        · obtain ⟨key, hkeyFound, hafter⟩ := (hkey _).mp h
          refine ⟨api ++ key, ?_, by rw [htext, hafter, List.append_assoc]⟩
          rw [List.map_append, hfound, hkeyFound]
          decide
    · cases h
  · rintro ⟨found, hfound, htext⟩
    obtain ⟨tail, htail, hword⟩ : ∃ tail ∈ ["key".toList, "_key".toList, "-key".toList],
        found.map plainLetter = "api".toList ++ tail := by
      simpa using hfound
    obtain ⟨api, key, rfl, hapiFound, hkeyFound⟩ := List.map_eq_append_iff.mp hword
    obtain ⟨c, key, rfl⟩ := List.exists_cons_of_ne_nil (show key ≠ [] by
      rintro rfl
      rw [List.map_nil] at hkeyFound
      rw [← hkeyFound] at htail
      exact absurd htail (by decide))
    have hsome : matchWord "api".toList text = some (c :: (key ++ rest)) :=
      (hapi _).mpr ⟨api, hapiFound, by rw [htext, List.append_assoc, List.cons_append]⟩
    rw [List.map_cons] at hkeyFound
    rw [matchApiKey, hsome]
    dsimp only
    rcases List.mem_cons.mp htail with rfl | htail
    · obtain ⟨hc, -⟩ := List.cons.inj hkeyFound
      rw [if_neg, hkey]
      · exact ⟨c :: key, hkeyFound, rfl⟩
      · rintro (rfl | rfl)
        · exact absurd hc (by decide)
        · exact absurd hc (by decide)
    · have hmark : (c = '_' ∨ c = '-') ∧ key.map plainLetter = "key".toList := by
        rw [List.mem_cons, List.mem_singleton] at htail
        rcases htail with rfl | rfl
        · obtain ⟨hc, hkeyWord⟩ := List.cons.inj hkeyFound
          exact ⟨.inl (eq_of_plainLetter (by decide) hc), hkeyWord⟩
        · obtain ⟨hc, hkeyWord⟩ := List.cons.inj hkeyFound
          exact ⟨.inr (eq_of_plainLetter (by decide) hc), hkeyWord⟩
      rw [if_pos hmark.1, hkey]
      exact ⟨key, hmark.2, rfl⟩

theorem mem_keyWords {word : Text} :
    word ∈ keyWords ↔ word ∈ ["apikey", "api_key", "api-key"].map String.toList ∨
      word = "token".toList ∨ word = "password".toList ∨ word = "cookie".toList ∨
        word = "authorization".toList := by
  simp [keyWords, or_assoc]

/-- No key is the beginning of another. -/
theorem keyWords_eq_of_append {word word' tail tail' : Text} (hword : word ∈ keyWords)
    (hword' : word' ∈ keyWords) (h : word ++ tail = word' ++ tail') : word = word' := by
  have hapart : ∀ w ∈ keyWords, ∀ w' ∈ keyWords, w <+: w' → w = w' := by decide
  rcases List.prefix_or_prefix_of_prefix (List.prefix_append word tail)
    (h ▸ List.prefix_append word' tail') with hle | hle
  · exact hapart word hword word' hword' hle
  · exact (hapart word' hword' word hword hle).symm

theorem matchKey_eq_some_iff :
    matchKey text = some rest ↔
      ∃ found, found.map plainLetter ∈ keyWords ∧ text = found ++ rest := by
  have hword : ∀ word, word ∈ ["token", "password", "cookie", "authorization"].map String.toList →
      ∀ rest, matchWord word text = some rest ↔
        ∃ found, found.map plainLetter = word ∧ text = found ++ rest := by
    intro word hword rest
    apply matchWord_eq_some_iff
    have hascii : (["token", "password", "cookie", "authorization"].map String.toList).all
        (fun w => w.all fun x => x.toNat < 128) = true := by decide
    exact List.all_eq_true.mp hascii word hword
  have hother : ∀ word, word ∈ ["token", "password", "cookie", "authorization"].map String.toList →
      word ∈ keyWords := by decide
  have hsound : ∀ rest, matchKey text = some rest →
      ∃ found, found.map plainLetter ∈ keyWords ∧ text = found ++ rest := by
    intro rest h
    simp only [matchKey, Option.orElse_eq_orElse, Option.orElse_eq_or, Option.or_eq_some_iff] at h
    rcases h with h | ⟨-, h | ⟨-, h | ⟨-, h | ⟨-, h⟩⟩⟩⟩
    · obtain ⟨found, hfound, htext⟩ := matchApiKey_eq_some_iff.mp h
      exact ⟨found, mem_keyWords.mpr (.inl hfound), htext⟩
    all_goals
      obtain ⟨found, hfound, htext⟩ := (hword _ (by decide) rest).mp h
      exact ⟨found, hfound ▸ hother _ (by decide), htext⟩
  refine ⟨hsound rest, ?_⟩
  rintro ⟨found, hfound, htext⟩
  have hsome : matchKey text ≠ none := by
    intro hnone
    simp only [matchKey, Option.orElse_eq_orElse, Option.orElse_eq_or, Option.or_eq_none_iff]
      at hnone
    obtain ⟨hapi, htoken, hpassword, hcookie, hauthorization⟩ := hnone
    rcases mem_keyWords.mp hfound with h | h | h | h | h
    · rw [matchApiKey_eq_some_iff.mpr ⟨found, h, htext⟩] at hapi
      cases hapi
    · rw [(hword _ (by decide) rest).mpr ⟨found, h, htext⟩] at htoken
      cases htoken
    · rw [(hword _ (by decide) rest).mpr ⟨found, h, htext⟩] at hpassword
      cases hpassword
    · rw [(hword _ (by decide) rest).mpr ⟨found, h, htext⟩] at hcookie
      cases hcookie
    · rw [(hword _ (by decide) rest).mpr ⟨found, h, htext⟩] at hauthorization
      cases hauthorization
  obtain ⟨rest', hrest'⟩ := Option.ne_none_iff_exists'.mp hsome
  obtain ⟨found', hfound', htext'⟩ := hsound rest' hrest'
  have hsame : found.map plainLetter = found'.map plainLetter := by
    have happend : found.map plainLetter ++ rest.map plainLetter =
        found'.map plainLetter ++ rest'.map plainLetter := by
      rw [← List.map_append, ← List.map_append, ← htext, ← htext']
    exact keyWords_eq_of_append hfound hfound' happend
  have hlength : found.length = found'.length := by
    simpa using congrArg List.length hsame
  rw [hrest', (List.append_inj (htext.symm.trans htext') hlength).2]

/-- Words that no key runs into. -/
def walls : List Text := keyWords ++ ["bearer", "0", "1"].map String.toList

/-- The text begins with such a word. -/
def Fresh (t : Text) : Prop := ∃ word tail, word.map plainLetter ∈ walls ∧ t = word ++ tail

/-- A key that begins before such a word ends before it. -/
theorem Fresh.matchKey_append (ht : Fresh t) (hu : u ≠ []) (h : matchKey (u ++ t) = some rest) :
    ∃ found after, found.map plainLetter ∈ keyWords ∧ u = found ++ after ∧ rest = after ++ t := by
  obtain ⟨found, hfound, htext⟩ := matchKey_eq_some_iff.mp h
  rcases List.append_eq_append_iff.mp htext.symm with ⟨after, hafter, hrest⟩ | ⟨beyond, hover, hrest⟩
  · exact ⟨found, after, hfound, hafter, hrest⟩
  by_cases hnil : beyond = []
  · subst hnil
    rw [List.append_nil] at hover
    rw [List.nil_append] at hrest
    exact ⟨found, [], hfound, by rw [hover, List.append_nil], hrest.symm⟩
  obtain ⟨word, tail, hword, rfl⟩ := ht
  have hapart : ∀ key ∈ keyWords, ∀ beyond ∈ key.tail.tails, beyond ≠ [] →
      ∀ word ∈ walls, ¬ beyond <+: word ∧ ¬ word <+: beyond := by decide
  have htail : beyond.map plainLetter ∈ (found.map plainLetter).tail.tails := by
    rw [List.mem_tails, hover, List.map_append]
    obtain ⟨c, u, rfl⟩ := List.exists_cons_of_ne_nil hu
    exact List.suffix_append _ _
  obtain ⟨hno, hno'⟩ := hapart _ hfound _ htail (by simpa using hnil) _ hword
  rcases List.prefix_or_prefix_of_prefix (List.prefix_append beyond rest)
    (hrest ▸ List.prefix_append word tail) with hle | hle
  · exact absurd (hle.map plainLetter) hno
  · exact absurd (hle.map plainLetter) hno'

theorem matchKey_append {found : Text} (hfound : found.map plainLetter ∈ keyWords) (rest : Text) :
    matchKey (found ++ rest) = some rest :=
  matchKey_eq_some_iff.mpr ⟨found, hfound, rfl⟩

/-- Its first character separates nothing. -/
theorem Fresh.head (ht : Fresh t) :
    ∃ c tail, t = c :: tail ∧ isValueChar c = true ∧ c ≠ ':' ∧ c ≠ '=' := by
  obtain ⟨word, tail, hword, rfl⟩ := ht
  have hheads : walls.all
      (fun w => w.head?.any (· ∈ ['a', 't', 'p', 'c', 'b', '0', '1'])) = true := by decide
  obtain ⟨x, hhead, hx⟩ := (Option.any_eq_true _ _).mp (List.all_eq_true.mp hheads _ hword)
  rw [decide_eq_true_iff] at hx
  rw [List.head?_map] at hhead
  obtain ⟨c, hc, rfl⟩ := Option.map_eq_some_iff.mp hhead
  obtain ⟨after, rfl⟩ := List.head?_eq_some_iff.mp hc
  refine ⟨c, after ++ tail, rfl, ?_, ?_, ?_⟩
  · by_contra hvalue
    have hall : ['a', 't', 'p', 'c', 'b', '0', '1'].all isValueChar = true := by decide
    rw [plainLetter_of_separator (Bool.eq_false_iff.mpr hvalue)] at hx
    exact hvalue (List.all_eq_true.mp hall c hx)
  · rintro rfl
    exact absurd hx (by decide)
  · rintro rfl
    exact absurd hx (by decide)

end Keys

end SmartMedia.Config
