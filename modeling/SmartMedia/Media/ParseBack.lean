import SmartMedia.Media.Titles

/-!
# Generated names parse back

The season and episode, or the year, of a name that the naming service generates are found again
by the parser, and so is the title unless a later word of it begins with a suffix the parser cuts.
-/
namespace SmartMedia.Media
open PythonRegex PythonRegex.Pattern PythonText MediaParser EmbyNamingService

/-- Nothing, or a dot and what no other dot follows. -/
def IsExtension (extension : Path) : Prop :=
  extension = [] ∨ ∃ name, extension = '.' :: name ∧ '.' ∉ name

section Names

theorem not_isDecimal_text (title : Title) {c : Char} (hc : c ∈ title.text) : isDecimal c = false := by
  rcases title.mem_text hc with hchar | rfl
  · exact not_isDecimal hchar
  · rfl

/-- What is cut at the last dot is at the end. -/
theorem nameWithoutExt_append (stem : Path) (hstem : '.' ∉ stem) (tail : Path) :
    ∃ kept, kept <+: tail ∧ nameWithoutExt (stem ++ tail) = stem ++ kept := by
  rw [nameWithoutExt]
  split_ifs with hdot
  · have hdot' : '.' ∈ tail := (List.mem_append.mp hdot).resolve_left hstem
    set after := tail.reverse.dropWhile (· ≠ '.') with hafter
    have hne : after ≠ [] := by
      intro hnil
      have hsplit := List.takeWhile_append_dropWhile (p := fun c => decide (c ≠ '.')) (l := tail.reverse)
      rw [← hafter, hnil, List.append_nil] at hsplit
      have hall := List.all_takeWhile (p := fun c => decide (c ≠ '.')) (l := tail.reverse)
      rw [hsplit, List.all_eq_true] at hall
      simpa using hall '.' (List.mem_reverse.mpr hdot')
    refine ⟨after.tail.reverse, ?_, ?_⟩
    · rw [← List.reverse_suffix, List.reverse_reverse]
      exact (List.tail_suffix after).trans (List.dropWhile_suffix _)
    · rw [List.reverse_append, List.dropWhile_append, ← hafter, if_neg (by simpa using hne),
        List.tail_append_of_ne_nil hne, List.reverse_append, List.reverse_reverse]
  · exact ⟨tail, List.prefix_rfl, rfl⟩

theorem nameWithoutExt_extension (stem : Path) (hstem : '.' ∉ stem) {extension : Path}
    (h : IsExtension extension) : nameWithoutExt (stem ++ extension) = stem := by
  rcases h with rfl | ⟨name, rfl, hname⟩
  · rw [List.append_nil, nameWithoutExt, if_neg hstem]
  · have hdrop : (name.reverse ++ '.' :: stem.reverse).dropWhile (· ≠ '.') = '.' :: stem.reverse := by
      rw [List.dropWhile_append_of_pos]
      · simp
      · intro c hc
        rw [decide_eq_true_eq]
        rintro rfl
        exact hname (List.mem_reverse.mp hc)
    rw [nameWithoutExt, if_pos (by simp), List.reverse_append, List.reverse_cons,
      List.append_assoc, List.singleton_append, hdrop, List.tail_cons, List.reverse_reverse]

end Names

theorem starts_number (name : String) {least : ℕ} {most : Option ℕ} (hleast : 0 < least) :
    Starts (fun c => isDecimal c = true) (group name (chars isDecimal least most false)) :=
  (starts_chars hleast fun _ h => h).group

section Episodes
variable (title : Title) {season episode rest : Path}

/-- In the title no season begins. -/
theorem no_season_before {u : Path} {k : ℕ} (hk : k < title.text.length) (hu : u.head? = some ' ') :
    run (seq (seq (many isSeparator) (one (isOneOf ['S', 's']))) (digits "season"))
      ((title.text ++ u).drop k) = [] := by
  apply run_seq_of_right
  intro m hm
  by_contra hrun
  obtain ⟨e, he, hdigit⟩ := starts_number "season" one_pos _ hrun
  obtain ⟨v, hv⟩ := List.head?_eq_some_iff.mp he
  obtain ⟨m₁, h₁, m₂, h₂, rfl⟩ := mem_seq.mp hm
  have hsplit := taken_append_rest hm
  obtain ⟨c, after, hafter, -, rfl⟩ := mem_one h₂
  rw [Match.append] at hsplit hv
  simp only at hsplit hv
  rw [hv, List.drop_append_of_le_length hk.le] at hsplit
  have htitle : ∀ d ∈ title.text.drop k, isDecimal d = false := fun d hd =>
    not_isDecimal_text title ((List.drop_sublist k _).subset hd)
  have hblank : u.head? ≠ some e := by
    rw [hu]
    rintro heq
    cases heq
    cases hdigit
  rcases List.append_eq_append_iff.mp hsplit with ⟨y, hy, hev⟩ | ⟨y, hy, hev⟩
  · cases y with
    | nil =>
        rw [List.nil_append] at hev
        exact hblank (by rw [← hev]; rfl)
    | cons d y =>
        have hd := htitle d (by rw [hy]; simp)
        rw [(List.cons.inj hev).1.symm, hdigit] at hd
        cases hd
  · rcases List.eq_nil_or_concat' y with rfl | ⟨y, d, rfl⟩
    · rw [List.nil_append] at hev
      exact hblank (by rw [hev]; rfl)
    · -- the separators would hold the last character of the title
      rw [← List.append_assoc] at hy
      have hall : m₁.taken = title.text.drop k ++ y := (List.append_inj' hy rfl).1
      obtain ⟨rest, last, hlast, hchar⟩ := title.text_eq_concat
      have hmem : last ∈ m₁.taken := by
        rw [hall, hlast, List.drop_append_of_le_length (by simp [hlast] at hk; omega)]
        simp
      have hseparator := mem_taken h₁ hmem
      rw [isSeparator, not_isOneOf hchar (by decide), not_isSpace hchar] at hseparator
      cases hseparator

theorem text_ne_nil : title.text ≠ [] := by
  obtain ⟨c, rest, hhead, -⟩ := title.text_eq_cons
  rw [hhead]
  simp

/-- No line ends in a title. -/
theorem isAny_text : ∀ c ∈ title.text, isAny c = true := by
  intro c hc
  rw [isAny, decide_eq_true_eq]
  rintro rfl
  rcases title.mem_text hc with hchar | hblank
  · cases hchar
  · cases hblank

/-- The lazy title ends at the first place from which the others match. -/
theorem matchStart_titleGroup {others : List Pattern} {next : Pattern} {x u : Path} {m : Match}
    (hx : x ≠ []) (hany : ∀ c ∈ x, isAny c = true)
    (hbefore : ∀ k < x.length, run (seqs next others) ((x ++ u).drop k) = [])
    (h : matchStart (seqs next others) u = some m) :
    matchStart (seqs titleGroup (next :: others)) (x ++ u) =
      some (Match.append ⟨x, u, [("title", x)]⟩ m) := by
  have hreach : x.length ≤ reach isAny none (x ++ u) := by
    rw [reach, List.takeWhile_append_of_pos hany, List.length_append]
    exact Nat.le_add_right _ _
  have hfirst : matchStart (seq titleGroup (seqs next others)) (x ++ u) = _ :=
    matchStart_lazy (List.length_pos_iff.mpr hx) hreach (fun k _ hk => hbefore k hk)
      (by rw [List.drop_left, h])
  rw [List.take_left, List.drop_left] at hfirst
  rw [matchStart, run_seqs_cons]
  exact hfirst

/-- The name of an episode is taken apart as it was put together. -/
theorem matchStart_standardPattern (hseason : season ≠ []) (hepisode : episode ≠ [])
    (hdigits : ∀ c ∈ season, isDecimal c = true) (hdigits' : ∀ c ∈ episode, isDecimal c = true)
    (hrest : ∀ c ∈ rest.head?, isDecimal c = false) :
    ∃ m, m.groups = [("episode", episode), ("season", season), ("title", title.text)] ∧
      matchStart standardPattern
        (title.text ++ (" - S".toList ++ (season ++ ('E' :: (episode ++ rest))))) = some m := by
  have hseparators : matchStart (many isSeparator)
      (" - S".toList ++ (season ++ ('E' :: (episode ++ rest)))) =
        some ⟨" - ".toList, 'S' :: (season ++ ('E' :: (episode ++ rest))), []⟩ :=
    matchStart_all (p := isSeparator) (x := " - ".toList)
      (List.all_eq_true.mp (by decide : " - ".toList.all isSeparator = true)) (by simp; rfl)
      (Nat.zero_le _)
  have hS : matchStart (one (isOneOf ['S', 's'])) ('S' :: (season ++ ('E' :: (episode ++ rest)))) =
      some ⟨['S'], season ++ ('E' :: (episode ++ rest)), []⟩ := matchStart_one rfl
  have hseasons : matchStart (digits "season") (season ++ ('E' :: (episode ++ rest))) =
      some ⟨season, 'E' :: (episode ++ rest), [("season", season)]⟩ := by
    have hnext : ∀ c ∈ ('E' :: (episode ++ rest)).head?, isDecimal c = false := by
      simp
      rfl
    have h := matchStart_all hdigits hnext (List.length_pos_iff.mpr hseason)
    rw [digits, matchStart_group, oneOrMore, h]
    rfl
  have hE : matchStart (one (isOneOf ['E', 'e'])) ('E' :: (episode ++ rest)) =
      some ⟨['E'], episode ++ rest, []⟩ := matchStart_one rfl
  have hepisodes : matchStart (digits "episode") (episode ++ rest) =
      some ⟨episode, rest, [("episode", episode)]⟩ := by
    have h := matchStart_all (p := isDecimal) hdigits' hrest (List.length_pos_iff.mpr hepisode)
    rw [digits, matchStart_group, oneOrMore, h]
    rfl
  refine ⟨_, ?_, matchStart_titleGroup (text_ne_nil title) (isAny_text title) ?_
    (matchStart_seq (matchStart_seq (matchStart_seq (matchStart_seq hseparators hS) hseasons) hE)
      hepisodes)⟩
  · rfl
  · intro k hk
    exact run_seqs_of_left (no_season_before title hk rfl) [one (isOneOf ['E', 'e']), digits "episode"]

end Episodes

section Movies
variable (title : Title) {year : Path}

/-- A decimal digit comes only after a bracket or another digit. -/
def AfterBracket (c d : Char) : Prop := isDecimal d = true → ¬ (c ≠ '(' ∧ c.isDigit = false)

theorem isChain_movieName (hyear : ∀ c ∈ year, c.isDigit = true) :
    (title.text ++ " (".toList ++ (year ++ ")".toList)).IsChain AfterBracket := by
  have hbefore : (title.text ++ " (".toList).IsChain AfterBracket := by
    apply List.Pairwise.isChain
    apply List.pairwise_of_forall_mem_list
    intro c _ d hd hdecimal
    exfalso
    rcases List.mem_append.mp hd with hd | hd
    · rw [not_isDecimal_text title hd] at hdecimal
      cases hdecimal
    · have hpair : d = ' ' ∨ d = '(' := by simpa using hd
      rcases hpair with rfl | rfl
      · cases hdecimal
      · cases hdecimal
  have hdigits : year.IsChain AfterBracket := by
    apply List.Pairwise.isChain
    apply List.pairwise_of_forall_mem_list
    rintro c hc d _ _ ⟨-, hdigit⟩
    rw [hyear c hc] at hdigit
    cases hdigit
  refine List.isChain_append.mpr
    ⟨hbefore, List.isChain_append.mpr ⟨hdigits, List.isChain_singleton _, ?_⟩, ?_⟩
  · rintro c hc d - - ⟨-, hdigit⟩
    rw [hyear c (List.mem_of_mem_getLast? hc)] at hdigit
    cases hdigit
  · intro c hc d _ _ hno
    rw [show " (".toList = [' '] ++ ['('] from rfl, ← List.append_assoc, List.getLast?_concat] at hc
    exact hno.1 (Option.mem_some.mp hc).symm

/-- No digits come after the characters that stand before a number of an episode. -/
theorem run_eq_nil_of_ends {r r' : Pattern} {s : Path} (others : List Pattern)
    (hs : s.IsChain AfterBracket) (h : Ends (fun c => c ≠ '(' ∧ c.isDigit = false) r)
    (h' : Starts (fun c => isDecimal c = true) r') :
    run (seqs (seq r r') others) s = [] :=
  run_seqs_of_left (run_seq_of_chain h h' hs) others

theorem isSpace_digit {c : Char} (h : c.isDigit = true) : isSpace c = false := by
  have hbounds := Char.isDigit_iff_toNat.mp h
  have hzero : '0'.toNat = 48 := rfl
  have hnine : '9'.toNat = 57 := rfl
  simp [isSpace]
  omega

theorem isOneOf_digit {cs : List Char} {c : Char} (hcs : cs.all (fun d => !d.isDigit) = true)
    (h : c.isDigit = true) : isOneOf cs c = false := by
  rw [isOneOf_eq_false]
  intro hc
  have hnone := List.all_eq_true.mp hcs c hc
  rw [h] at hnone
  cases hnone

theorem not_before_digit {p : Char → Bool} (hbracket : p '(' = false)
    (hdigit : ∀ c, c.isDigit = true → p c = false) {c : Char} (hc : p c = true) :
    c ≠ '(' ∧ c.isDigit = false := by
  constructor
  · rintro rfl
    rw [hbracket] at hc
    cases hc
  · rw [Bool.eq_false_iff]
    intro hd
    rw [hdigit c hd] at hc
    cases hc

/-- No pattern of an episode, and none that begins with a bracket, matches the name of a movie. -/
theorem matchStart_eq_none (hyear : ∀ c ∈ year, c.isDigit = true) :
    ∀ r ∈ patterns.take 9,
      matchStart r (title.text ++ " (".toList ++ (year ++ ")".toList)) = none := by
  have hs := isChain_movieName title hyear
  have hone : ∀ cs : List Char, cs.all (fun d => !d.isDigit) = true → isOneOf cs '(' = false →
      Ends (fun c => c ≠ '(' ∧ c.isDigit = false) (one (isOneOf cs)) := fun cs hcs hbracket =>
    ends_chars one_pos fun _ => not_before_digit hbracket fun _ => isOneOf_digit hcs
  have hopt : Ends (fun c => c ≠ '(' ∧ c.isDigit = false)
      (seq (seq (seq titleGroup (many isSeparator)) (one (isOneOf ['E', 'e'])))
        (opt (isOneOf ['P', 'p']))) :=
    (hone _ rfl rfl).seq.seq_chars fun _ => not_before_digit rfl fun _ => isOneOf_digit rfl
  have hblank : Ends (fun c => c ≠ '(' ∧ c.isDigit = false)
      (oneOrMore fun c => isOneOf ['-', '_'] c || isSpace c) := by
    refine ends_chars one_pos fun c =>
      not_before_digit (p := fun c => isOneOf ['-', '_'] c || isSpace c) rfl fun c hc => ?_
    rw [isOneOf_digit rfl hc, isSpace_digit hc]
    rfl
  have hopen : ∀ others : List Pattern, run (seqs (one (isOneOf ['['])) others)
      (title.text ++ " (".toList ++ (year ++ ")".toList)) = [] := by
    intro others
    apply run_seqs_of_left
    by_contra hrun
    obtain ⟨c, hc, hbracket⟩ :=
      starts_chars (P := fun c => isOneOf ['['] c = true) one_pos (fun _ h => h) _ hrun
    obtain ⟨d, rest, hhead, hd⟩ := title.text_eq_cons
    rw [hhead] at hc
    cases hc
    rw [not_isOneOf hd (by decide)] at hbracket
    cases hbracket
  have hnone : ∀ {r : Pattern} {s : Path}, run r s = [] → matchStart r s = none := by
    intro r s h
    rw [matchStart, h]
    rfl
  intro r hr
  apply hnone
  simp only [patterns, List.take_succ_cons, List.take_zero, List.mem_cons, List.not_mem_nil,
    or_false] at hr
  rcases hr with rfl | rfl | rfl | rfl | rfl | rfl | rfl | rfl | rfl
  · exact run_eq_nil_of_ends [one (isOneOf ['E', 'e']), digits "episode"] hs
      (hone ['S', 's'] rfl rfl).seq (starts_number "season" one_pos)
  · exact run_eq_nil_of_ends
      [one (isOneOf ['季']), opt fun c => isOneOf ['.', '-'] c || isSpace c, digits "episode",
        one (isOneOf ['集', '话'])] hs (hone ['第'] rfl rfl).seq (starts_number "season" one_pos)
  · exact run_eq_nil_of_ends [] hs hopt (starts_number "episode" one_pos)
  · exact run_eq_nil_of_ends [one (isOneOf ['集', '话'])] hs (hone ['第'] rfl rfl).seq
      (starts_number "episode" one_pos)
  · exact run_eq_nil_of_ends [ahead (alt (alt (one isSpace) (one (isOneOf ['[', '.']))) last)] hs
      hblank.seq (starts_number "episode" Nat.two_pos)
  · exact run_eq_nil_of_ends [one (isOneOf ['E', 'e']), digits "episode", one (isOneOf ['E', 'e']),
      oneOrMore isDecimal] hs (hone ['S', 's'] rfl rfl).seq (starts_number "season" one_pos)
  · exact run_eq_nil_of_ends [one (isOneOf ['E', 'e']), opt (isOneOf ['P', 'p']),
      oneOrMore isDecimal] hs hopt (starts_number "episode" one_pos)
  · exact hopen _
  · exact hopen _

/-- The year is found, with a blank after the title. -/
theorem matchStart_yearPattern (hlength : year.length = 4) (hyear : ∀ c ∈ year, c.isDigit = true) :
    ∃ m, m.groups = [("year", year), ("title", title.text ++ [' '])] ∧
      matchStart yearPattern (title.text ++ " (".toList ++ (year ++ ")".toList)) = some m := by
  have hopen : matchStart (one fun c => isOneOf ['.', '(', '['] c || isSpace c)
      ('(' :: (year ++ ")".toList)) = some ⟨['('], year ++ ")".toList, []⟩ := matchStart_one rfl
  have hyears : matchStart (group "year" (chars isDecimal 4 (some 4) false)) (year ++ ")".toList) =
      some ⟨year, ")".toList, [("year", year)]⟩ := by
    have hreach : reach isDecimal (some 4) (year ++ ")".toList) = 4 := by
      rw [reach, reach_append (fun c hc => isDecimal_of_isDigit (hyear c hc)) (by simp; rfl), hlength]
      rfl
    rw [matchStart_group, matchStart_greedy hreach le_rfl, List.take_left' hlength,
      List.drop_left' hlength]
    rfl
  have hclose : matchStart (one fun c => isOneOf ['.', ')', ']'] c || isSpace c) ")".toList =
      some ⟨[')'], [], []⟩ := matchStart_one rfl
  have hany : ∀ c ∈ title.text ++ [' '], isAny c = true := by
    intro c hc
    rcases List.mem_append.mp hc with hc | hc
    · exact isAny_text title c hc
    · rw [List.mem_singleton.mp hc]
      rfl
  have hname : title.text ++ " (".toList ++ (year ++ ")".toList) =
      (title.text ++ [' ']) ++ '(' :: (year ++ ")".toList) := by
    simp
  rw [hname]
  refine ⟨_, ?_, matchStart_titleGroup (by simp) hany ?_
    (matchStart_seq (matchStart_seq hopen hyears) hclose)⟩
  · rfl
  · intro k hk
    refine run_seqs_of_left (run_seq_of_right ?_) [one fun c => isOneOf ['.', ')', ']'] c || isSpace c]
    intro m hm
    by_contra hrun
    obtain ⟨d, hd, hdecimal⟩ := starts_number "year" (Nat.succ_pos 3) _ hrun
    obtain ⟨c, rest, hdrop, -, rfl⟩ := mem_one hm
    have hrest : rest = ((title.text ++ [' ']) ++ '(' :: (year ++ ")".toList)).drop (k + 1) := by
      rw [← List.drop_drop, List.drop_one, hdrop, List.tail_cons]
    simp only at hd
    rw [hrest, List.drop_append_of_le_length hk] at hd
    have hmem : d ∈ title.text ++ [' '] ∨ d = '(' := by
      cases hafter : (title.text ++ [' ']).drop (k + 1) with
      | nil =>
          rw [hafter] at hd
          exact .inr (Option.mem_some.mp hd).symm
      | cons e after =>
          rw [hafter] at hd
          cases hd
          exact .inl ((List.drop_sublist _ _).subset (hafter ▸ List.mem_cons_self))
    rcases hmem with hmem | rfl
    · rcases List.mem_append.mp hmem with hmem | hmem
      · rw [not_isDecimal_text title hmem] at hdecimal
        cases hdecimal
      · rw [List.mem_singleton.mp hmem] at hdecimal
        cases hdecimal
    · cases hdecimal

end Movies

section Parsing
variable {filename name : Path} {info : Info} {m : Match}

theorem parseWith_of_matchStart {r : Pattern} {others : List Pattern}
    (h : r.matchStart name = some m) (hne : (info.update m).title ≠ filename) :
    parseWith filename name (r :: others) info = info.update m := by
  rw [parseWith, h]
  simp only
  rw [if_pos hne]

/-- Patterns without a match are passed over. -/
theorem parseWith_append {skipped others : List Pattern}
    (h : ∀ r ∈ skipped, r.matchStart name = none) :
    parseWith filename name (skipped ++ others) info = parseWith filename name others info := by
  induction skipped with
  | nil => rfl
  | cons r skipped ih =>
      rw [List.cons_append, parseWith, h r List.mem_cons_self]
      exact ih fun r' hr' => h r' (List.mem_cons_of_mem r hr')

/-- A character of the name that is not in the title shows that something was cut off. -/
theorem postProcessTitle_ne {s : Path} {c : Char} (hc : c ∈ filename) (hne : c ≠ ' ') (hs : c ∉ s) :
    postProcessTitle s ≠ filename := by
  rintro rfl
  exact hs (mem_postProcessTitle hc hne)

theorem get_eq (name : String) {v : Path} (h : m.groups.lookup name = some v)
    (hne : v ≠ []) : Match.get m name = some v := by
  rw [Match.get, h, truthy_of_ne_nil hne]

end Parsing

section Names
variable (title : Title) {extension : Path}

/-- The name of an episode up to its number, and what may follow. -/
theorem episodeName_eq (hlength : title.text.length ≤ 200) (hextension : IsExtension extension)
    (year : Option ℕ) (season episode : ℕ) (episodeTitle : Option Path) :
    ∃ tail, (∀ c ∈ tail.head?, isDecimal c = false) ∧
      (generateTvShowName {} title.text year (some season) (some episode) episodeTitle extension
        false).2.2 =
        title.text ++ " - S".toList ++ decimal 2 season ++ "E".toList ++ decimal 2 episode ++
          tail := by
  have hhead : ∀ c ∈ extension.head?, isDecimal c = false := by
    rcases hextension with rfl | ⟨name, rfl, -⟩
    · simp
    · simp
      rfl
  cases htitle : truthy episodeTitle with
  | none =>
      refine ⟨extension, hhead, ?_⟩
      simp only [generateTvShowName, htitle, sanitizeFilename_text title hlength]
      rfl
  | some name =>
      refine ⟨" - ".toList ++ sanitizeFilename {} name ++ extension, by simp; rfl, ?_⟩
      simp only [generateTvShowName, htitle, sanitizeFilename_text title hlength]
      simp

theorem not_mem_decimal {width n : ℕ} {c : Char} (hc : c.isDigit = false) :
    c ∉ decimal width n := by
  intro hmem
  rw [isDigit_of_mem_decimal hmem] at hc
  cases hc

/-- A character that stands neither in titles nor in numbers. -/
theorem not_mem_text {c : Char} (hc : Media.isTitleChar c = false) (hblank : c ≠ ' ') :
    c ∉ title.text := by
  intro hmem
  rcases title.mem_text hmem with hchar | rfl
  · rw [hc] at hchar
    cases hchar
  · exact hblank rfl

theorem parse_episodeName (season episode : ℕ) {tail : Path}
    (htail : ∀ c ∈ tail.head?, isDecimal c = false) {info : Info}
    (hinfo : info = parse (title.text ++ " - S".toList ++ decimal 2 season ++ "E".toList ++
      decimal 2 episode ++ tail)) :
    info.title = postProcessTitle title.text ∧ info.season = some season ∧
      info.episode = some episode := by
  obtain ⟨kept, hkept, hname⟩ := nameWithoutExt_append
    (title.text ++ " - S".toList ++ decimal 2 season ++ "E".toList ++ decimal 2 episode)
    (by simp [not_mem_text title (c := '.') rfl (by decide), not_mem_decimal]) tail
  have hrest : ∀ c ∈ kept.head?, isDecimal c = false := by
    obtain ⟨after, rfl⟩ := hkept
    intro c hc
    apply htail
    rw [List.head?_append, Option.mem_def.mp hc]
    rfl
  obtain ⟨m, hgroups, hmatch⟩ := matchStart_standardPattern title
    (decimal_ne_nil 2 season) (decimal_ne_nil 2 episode)
    (fun c hc => isDecimal_of_isDigit (isDigit_of_mem_decimal hc))
    (fun c hc => isDecimal_of_isDigit (isDigit_of_mem_decimal hc)) hrest
  have htitle := get_eq "title" (m := m) (v := title.text) (by rw [hgroups]; rfl) (text_ne_nil title)
  have hseason := get_eq "season" (m := m) (v := decimal 2 season) (by rw [hgroups]; rfl)
    (decimal_ne_nil 2 season)
  have hepisode := get_eq "episode" (m := m) (v := decimal 2 episode) (by rw [hgroups]; rfl)
    (decimal_ne_nil 2 episode)
  have hne : postProcessTitle title.text ≠ title.text ++ " - S".toList ++ decimal 2 season ++
      "E".toList ++ decimal 2 episode ++ tail :=
    postProcessTitle_ne (c := '-') (by simp) (by decide) (not_mem_text title rfl (by decide))
  rw [hinfo, parse, hname, patterns, parseWith_of_matchStart (m := m)]
  · simp only [Info.update, htitle, hseason, hepisode, Option.map_some, Option.getD_some,
      Option.some_or, intOf_decimal, and_self]
  · rw [← hmatch]
    simp
  · simp only [Info.update, htitle, Option.map_some, Option.getD_some]
    exact hne

/-- The name of a movie, whatever may be written into its folder. -/
theorem movieName_eq (extension : Path) (hlength : title.text.length ≤ 200) {year : ℕ} (hyear : year ≠ 0)
    (tmdbId : Option ℕ) (quality source codec : Option Path) :
    (generateMovieName {} title.text (some year) extension tmdbId quality source codec none).2 =
      title.text ++ " (".toList ++ (decimal 0 year ++ ")".toList) ++ extension := by
  simp only [generateMovieName, sanitizeFilename_text title hlength, withYear, included,
    Option.filter_some, decide_eq_true hyear]
  simp

theorem length_year {year : ℕ} (h : 1900 ≤ year) (h' : year ≤ 2099) :
    (decimal 0 year).length = 4 := by
  have hle : (Nat.toDigits 10 year).length ≤ 4 :=
    (Nat.length_toDigits_le_iff (by decide) (by decide)).mpr (by omega)
  have hlt : ¬ (Nat.toDigits 10 year).length ≤ 3 := by
    rw [Nat.length_toDigits_le_iff (by decide) (by decide)]
    omega
  rw [decimal, List.length_leftpad]
  omega

theorem parse_movieName (hextension : IsExtension extension) {year : ℕ} (h : 1900 ≤ year)
    (h' : year ≤ 2099) {info : Info}
    (hinfo : info = parse (title.text ++ " (".toList ++ (decimal 0 year ++ ")".toList) ++
      extension)) :
    info.title = postProcessTitle (title.text ++ [' ']) ∧ info.year = some year ∧
      info.season = none ∧ info.episode = none := by
  have hname := nameWithoutExt_extension
    (title.text ++ " (".toList ++ (decimal 0 year ++ ")".toList))
    (by simp [not_mem_text title (c := '.') rfl (by decide), not_mem_decimal]) hextension
  have hdigits : ∀ c ∈ decimal 0 year, c.isDigit = true := fun c hc => isDigit_of_mem_decimal hc
  obtain ⟨m, hgroups, hmatch⟩ := matchStart_yearPattern title (length_year h h') hdigits
  have htitle := get_eq "title" (m := m) (v := title.text ++ [' ']) (by rw [hgroups]; rfl) (by simp)
  have hyear := get_eq "year" (m := m) (v := decimal 0 year) (by rw [hgroups]; rfl)
    (decimal_ne_nil 0 year)
  have hseason : Match.get m "season" = none := by
    rw [Match.get, hgroups]
    rfl
  have hepisode : Match.get m "episode" = none := by
    rw [Match.get, hgroups]
    rfl
  have hne : postProcessTitle (title.text ++ [' ']) ≠
      title.text ++ " (".toList ++ (decimal 0 year ++ ")".toList) ++ extension :=
    postProcessTitle_ne (c := '(') (by simp) (by decide)
      (by simp [not_mem_text title (c := '(') rfl (by decide)])
  have hpatterns : patterns = patterns.take 9 ++ [yearPattern, bracketYearPattern] := rfl
  rw [hinfo, parse, hname, hpatterns, parseWith_append (matchStart_eq_none title hdigits),
    parseWith_of_matchStart hmatch]
  · simp only [Info.update, htitle, hyear, hseason, hepisode, Option.map_some, Option.map_none,
      Option.getD_some, Option.some_or, Option.none_or, intOf_decimal, and_self]
  · simp only [Info.update, htitle, Option.map_some, Option.getD_some]
    exact hne

/-- The numbers of generated names are parsed back, and so is the title unless one of its later
words begins with a suffix that ends titles. -/
theorem names_parse_back (hlength : title.text.length ≤ 200) (hextension : IsExtension extension) :
    (∀ (year : Option ℕ) (season episode : ℕ) (episodeTitle : Option Path),
      let info := parse (generateTvShowName {} title.text year (some season) (some episode)
        episodeTitle extension false).2.2
      info.season = some season ∧ info.episode = some episode ∧
        ((∀ w ∈ title.words.tail, ¬ TagLed w) → info.title = title.text)) ∧
    ∀ (year : ℕ) (tmdbId : Option ℕ) (quality source codec : Option Path),
      1900 ≤ year → year ≤ 2099 →
      let info := parse (generateMovieName {} title.text (some year) extension tmdbId quality source
        codec none).2
      info.year = some year ∧ info.season = none ∧ info.episode = none ∧
        ((∀ w ∈ title.words.tail, ¬ TagLed w) → info.title = title.text) := by
  constructor
  · intro year season episode episodeTitle info
    obtain ⟨tail, htail, hname⟩ :=
      episodeName_eq title hlength hextension year season episode episodeTitle
    obtain ⟨htitle, hseason, hepisode⟩ :=
      parse_episodeName title season episode htail (congrArg parse hname)
    refine ⟨hseason, hepisode, fun htags => ?_⟩
    have hclean := postProcessTitle_text title (.inl rfl) htags
    rw [List.append_nil] at hclean
    rw [htitle, hclean]
  · intro year tmdbId quality source codec h h' info
    have hpos : year ≠ 0 := by omega
    have hname := movieName_eq title extension hlength hpos tmdbId quality source codec
    obtain ⟨htitle, hyear, hseason, hepisode⟩ :=
      parse_movieName title hextension h h' (congrArg parse hname)
    exact ⟨hyear, hseason, hepisode, fun htags =>
      htitle.trans (postProcessTitle_text title (.inr rfl) htags)⟩

end Names

section Samples

/-- Words of a fixed title. -/
def titleOf (words : List String) (hne : words ≠ []) (hwords : ∀ w ∈ words, w.toList ≠ [])
    (hchars : (words.all fun w => w.toList.all Media.isTitleChar) = true) : Title where
  words := words.map String.toList
  words_ne_nil := by simpa using hne
  word_ne_nil := by simpa using hwords
  isTitleChar := by simpa using hchars

def blueSky : Title := titleOf ["Blue", "Sky"] (by decide) (by decide) (by decide)

def theProper : Title := titleOf ["The", "Proper"] (by decide) (by decide) (by decide)

theorem blueSky_parses_back :
    (let info := parse (generateTvShowName {} blueSky.text none (some 2) (some 13) none
      ".mkv".toList false).2.2
    info.season = some 2 ∧ info.episode = some 13 ∧ info.title = blueSky.text) ∧
    let info := parse (generateMovieName {} blueSky.text (some 2006) ".mkv".toList none none none
      none none).2
    info.year = some 2006 ∧ info.season = none ∧ info.episode = none ∧
      info.title = blueSky.text := by
  have htags : ∀ w ∈ blueSky.words.tail, ¬ TagLed w := by
    unfold TagLed
    decide
  have hextension : IsExtension ".mkv".toList := .inr ⟨"mkv".toList, rfl, by decide⟩
  obtain ⟨hshow, hmovie⟩ := names_parse_back blueSky (by decide) hextension
  obtain ⟨hseason, hepisode, htitle⟩ := hshow none 2 13 none
  obtain ⟨hyear, hnone, hnone', htitle'⟩ :=
    hmovie 2006 none none none none (by decide) (by decide)
  exact ⟨⟨hseason, hepisode, htitle htags⟩, hyear, hnone, hnone', htitle' htags⟩

/-- What begins like a suffix is cut off. -/
theorem theProper_cut :
    let info := parse (generateTvShowName {} theProper.text none (some 2) (some 13) none
      ".mkv".toList false).2.2
    info.title = "The".toList ∧ info.title ≠ theProper.text := by
  decide +kernel

end Samples

end SmartMedia.Media
