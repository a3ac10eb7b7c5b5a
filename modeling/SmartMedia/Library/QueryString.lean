import SmartMedia.Library.PercentEncoding

/-!
# Query strings

`parse_qsl` with blank values kept, and `urlencode`. What has been encoded is read back, whatever
the pairs are.
-/
namespace QueryString
open PercentEncoding

abbrev Pair := List Char × List Char

/-- The characters that `quote` never escapes. -/
def isUnreserved (c : Char) : Bool := c.isAlphanum || c ∈ ['_', '.', '-', '~']

/-- `quote_plus` -/
def quotePlus (text : List Char) : List Char :=
  if ' ' ∈ text then
    (quote (fun c => isUnreserved c || c = ' ') text).map fun c => if c = ' ' then '+' else c
  else quote isUnreserved text

/-- `unquote_plus` -/
def unquotePlus (text : List Char) : List Char :=
  unquote (text.map fun c => if c = '+' then ' ' else c)

def encodePair (pair : Pair) : List Char := quotePlus pair.1 ++ '=' :: quotePlus pair.2

def urlencode (pairs : List Pair) : List Char := ['&'].intercalate (pairs.map encodePair)

/-- The name and the value around the first `=`. -/
def parsePair (part : List Char) : Pair :=
  let name := part.takeWhile (· ≠ '=')
  (unquotePlus name, unquotePlus (part.drop name.length).tail)

/-- `parse_qsl(query, keep_blank_values=True)` -/
def parseQsl (query : List Char) : List Pair :=
  ((query.splitOn '&').filter (· ≠ [])).map parsePair

section Texts
variable {text : List Char} {c : Char}

theorem isUnreserved_hexDigit {n : ℕ} (h : n < 16) : isUnreserved (hexDigit n) = true := by
  interval_cases n <;> rfl

/-- No separator is unreserved, a percent sign or a plus sign. -/
theorem mem_quotePlus (h : c ∈ quotePlus text) : c = '%' ∨ c = '+' ∨ isUnreserved c = true := by
  rw [quotePlus] at h
  split_ifs at h
  · obtain ⟨d, hd, rfl⟩ := List.mem_map.mp h
    rcases quote_mem hd with rfl | ⟨n, hn, rfl⟩ | ⟨hsafe, -⟩
    · exact .inl rfl
    · rw [if_neg]
      · exact .inr (.inr (isUnreserved_hexDigit hn))
      · intro hspace
        have hhex := isUnreserved_hexDigit hn
        rw [hspace] at hhex
        cases hhex
    · split_ifs with hspace
      · exact .inr (.inl rfl)
      · rw [Bool.or_eq_true, decide_eq_true_iff] at hsafe
        exact .inr (.inr (hsafe.resolve_right hspace))
  · rcases quote_mem h with rfl | ⟨n, hn, rfl⟩ | ⟨hsafe, -⟩
    · exact .inl rfl
    · exact .inr (.inr (isUnreserved_hexDigit hn))
    · exact .inr (.inr hsafe)

theorem notMem_quotePlus (hsign : c ≠ '%' ∧ c ≠ '+') (hc : isUnreserved c = false) :
    c ∉ quotePlus text := by
  intro hmem
  rcases mem_quotePlus hmem with h | h | h
  · exact hsign.1 h
  · exact hsign.2 h
  · rw [hc] at h
    cases h

theorem plus_notMem_quote {safe : Char → Bool} (hsafe : safe '+' = false) :
    '+' ∉ quote safe text := by
  intro hmem
  rcases quote_mem hmem with h | ⟨n, hn, h⟩ | ⟨h, -⟩
  · cases h
  · have hhex := isUnreserved_hexDigit hn
    rw [← h] at hhex
    cases hhex
  · rw [hsafe] at h
    cases h

theorem unquotePlus_quotePlus (text : List Char) : unquotePlus (quotePlus text) = text := by
  rw [unquotePlus, quotePlus]
  split_ifs
  · rw [List.map_map]
    refine (congrArg unquote ((List.map_congr_left fun c hc => ?_).trans (List.map_id _))).trans
      (unquote_quote rfl text)
    have hplus : c ≠ '+' := by
      rintro rfl
      exact plus_notMem_quote rfl hc
    by_cases hspace : c = ' '
    · subst hspace
      rfl
    · rw [Function.comp_apply, if_neg hspace, if_neg hplus]
      rfl
  · refine (congrArg unquote ((List.map_congr_left fun c hc => ?_).trans (List.map_id _))).trans
      (unquote_quote rfl text)
    rw [if_neg]
    · rfl
    · rintro rfl
      exact plus_notMem_quote rfl hc

end Texts

section Pairs
variable {pair : Pair} {pairs : List Pair} {c : Char}

theorem notMem_encodePair (hsign : c ≠ '%' ∧ c ≠ '+' ∧ c ≠ '=') (hc : isUnreserved c = false) :
    c ∉ encodePair pair := by
  have hquoted : ∀ text, c ∉ quotePlus text := fun text => notMem_quotePlus ⟨hsign.1, hsign.2.1⟩ hc
  rw [encodePair, List.mem_append, List.mem_cons]
  rintro (h | rfl | h)
  · exact hquoted _ h
  · exact hsign.2.2 rfl
  · exact hquoted _ h

theorem parsePair_encodePair (pair : Pair) : parsePair (encodePair pair) = pair := by
  have hname : (encodePair pair).takeWhile (· ≠ '=') = quotePlus pair.1 := by
    rw [encodePair, List.takeWhile_append_of_pos, List.takeWhile_cons_of_neg, List.append_nil]
    · simp
    · intro c hc
      rw [decide_eq_true_iff]
      rintro rfl
      exact notMem_quotePlus (by decide) rfl hc
  rw [parsePair, hname, encodePair, List.drop_left, List.tail_cons, unquotePlus_quotePlus,
    unquotePlus_quotePlus]

/-- What has been encoded is read back. -/
theorem parseQsl_urlencode (pairs : List Pair) : parseQsl (urlencode pairs) = pairs := by
  cases pairs with
  | nil => rfl
  | cons pair rest =>
      have hsplit : (urlencode (pair :: rest)).splitOn '&' = (pair :: rest).map encodePair := by
        refine List.splitOn_intercalate '&' (fun part hpart => ?_) (List.cons_ne_nil _ _)
        obtain ⟨p, -, rfl⟩ := List.mem_map.mp hpart
        exact notMem_encodePair (by decide) rfl
      have hparts : ((pair :: rest).map encodePair).filter (· ≠ []) =
          (pair :: rest).map encodePair := by
        refine List.filter_eq_self.mpr fun part hpart => ?_
        obtain ⟨p, -, rfl⟩ := List.mem_map.mp hpart
        exact decide_eq_true (List.append_ne_nil_of_right_ne_nil _ (List.cons_ne_nil _ _))
      rw [parseQsl, hsplit, hparts, List.map_map]
      exact (List.map_congr_left fun p _ => parsePair_encodePair p).trans (List.map_id _)

/-- An encoded query has no other separators. -/
theorem notMem_urlencode (hsign : c ≠ '%' ∧ c ≠ '+' ∧ c ≠ '=' ∧ c ≠ '&')
    (hc : isUnreserved c = false) : c ∉ urlencode pairs := by
  have hpair : ∀ pair, c ∉ encodePair pair := fun pair =>
    notMem_encodePair ⟨hsign.1, hsign.2.1, hsign.2.2.1⟩ hc
  rw [urlencode]
  induction pairs with
  | nil => exact List.not_mem_nil
  | cons pair rest ih =>
      cases rest with
      | nil =>
          rw [List.map_singleton, List.intercalate_singleton]
          exact hpair pair
      | cons next rest =>
          rw [List.map_cons, List.map_cons, List.intercalate_cons_cons, List.mem_append,
            List.mem_append, List.mem_singleton]
          rintro ((h | rfl) | h)
          · exact hpair pair h
          · exact hsign.2.2.2 rfl
          · exact ih h

end Pairs

end QueryString
