import Mathlib.Data.List.Chain
import Mathlib.Tactic.Common

/-!
# Regular expressions

The part of Python's `re` in which characters are repeated but no groups. A run lists the ways to
match at the beginning of a text in the order in which backtracking tries them; a match is the
first of them.
-/
namespace PythonRegex

abbrev Text := List Char

inductive Pattern
  /-- So many characters of a class, as many or as few as possible. -/
  | chars (p : Char → Bool) (least : ℕ) (most : Option ℕ) (lazy : Bool)
  | group (name : String) (r : Pattern)
  | seq (r r' : Pattern)
  | alt (r r' : Pattern)
  /-- `(?=r)` -/
  | ahead (r : Pattern)
  /-- `$` -/
  | last

structure Match where
  taken : Text
  rest : Text
  groups : List (String × Text)
  deriving DecidableEq, Repr

/-- First one match, then one where it ends. -/
def Match.append (m m' : Match) : Match := ⟨m.taken ++ m'.taken, m'.rest, m'.groups ++ m.groups⟩

namespace Pattern

/-- How many characters of the class there are to take. -/
def reach (p : Char → Bool) (most : Option ℕ) (s : Text) : ℕ :=
  match most with
  | none => (s.takeWhile p).length
  | some m => min m (s.takeWhile p).length

def run : Pattern → Text → List Match
  | chars p least most lazy, s =>
      let lengths := (List.range (reach p most s + 1)).filter (least ≤ ·)
      (if lazy then lengths else lengths.reverse).map fun n => ⟨s.take n, s.drop n, []⟩
  | group name r, s => (run r s).map fun m => { m with groups := (name, m.taken) :: m.groups }
  | seq r r', s => (run r s).flatMap fun m => (run r' m.rest).map m.append
  | alt r r', s => run r s ++ run r' s
  | ahead r, s => (run r s).head?.toList.map fun m => ⟨[], s, m.groups⟩
  | last, s => if s = [] ∨ s = ['\n'] then [⟨[], s, []⟩] else []

/-- `re.match` -/
def matchStart (r : Pattern) (s : Text) : Option Match := (run r s).head?

/-- `re.search` -/
def search (r : Pattern) : Text → Option Match
  | [] => r.matchStart []
  | c :: s =>
      match r.matchStart (c :: s) with
      | some m => some m
      | none => search r s

/-- `re.sub` with the empty text, after so many characters of a match. Matches of no character
leave nothing to remove. -/
def removeFrom (r : Pattern) : ℕ → Text → Text
  | _, [] => []
  | skip + 1, _ :: s => removeFrom r skip s
  | 0, c :: s =>
      match (run r (c :: s)).find? fun m => m.taken ≠ [] with
      | none => c :: removeFrom r 0 s
      | some m => removeFrom r (m.taken.length - 1) s

def remove (r : Pattern) (s : Text) : Text := removeFrom r 0 s

/-- One character of a class. -/
def one (p : Char → Bool) : Pattern := chars p 1 (some 1) false

/-- One character of a class, or none. -/
def opt (p : Char → Bool) : Pattern := chars p 0 (some 1) false

def many (p : Char → Bool) : Pattern := chars p 0 none false

def oneOrMore (p : Char → Bool) : Pattern := chars p 1 none false

def oneOrMoreLazy (p : Char → Bool) : Pattern := chars p 1 none true

/-- Patterns one after the other. -/
def seqs (first : Pattern) (others : List Pattern) : Pattern := others.foldl seq first

/-- The characters of a text, as they are. -/
def exactly (s : Text) : Pattern :=
  seqs (chars (fun _ => false) 0 none false) (s.map fun c => one (· = c))

section Runs
variable {r r' : Pattern} {s u : Text} {m m' : Match} {p : Char → Bool}

theorem reach_le (p : Char → Bool) (most : Option ℕ) (s : Text) :
    reach p most s ≤ (s.takeWhile p).length := by
  cases most with
  | none => exact le_rfl
  | some m => exact Nat.min_le_right _ _

section Equations

theorem run_chars (p : Char → Bool) (least : ℕ) (most : Option ℕ) (lazy : Bool) (s : Text) :
    run (chars p least most lazy) s =
      (if lazy then (List.range (reach p most s + 1)).filter (least ≤ ·)
        else ((List.range (reach p most s + 1)).filter (least ≤ ·)).reverse).map
        fun n => ⟨s.take n, s.drop n, []⟩ := rfl

theorem run_group (name : String) (r : Pattern) (s : Text) :
    run (group name r) s = (run r s).map fun m => { m with groups := (name, m.taken) :: m.groups } :=
  rfl

theorem run_seq (r r' : Pattern) (s : Text) :
    run (seq r r') s = (run r s).flatMap fun m => (run r' m.rest).map m.append := rfl

theorem run_alt (r r' : Pattern) (s : Text) : run (alt r r') s = run r s ++ run r' s := rfl

theorem run_last (s : Text) : run last s = if s = [] ∨ s = ['\n'] then [⟨[], s, []⟩] else [] := rfl

end Equations

theorem mem_chars {least : ℕ} {most : Option ℕ} {lazy : Bool} :
    m ∈ run (chars p least most lazy) s ↔
      ∃ n, least ≤ n ∧ n ≤ reach p most s ∧ m = ⟨s.take n, s.drop n, []⟩ := by
  rw [run_chars, List.mem_map]
  constructor
  · rintro ⟨n, hn, rfl⟩
    have hmem : n ∈ (List.range (reach p most s + 1)).filter (least ≤ ·) := by
      cases lazy with
      | true => exact hn
      | false => exact List.mem_reverse.mp hn
    rw [List.mem_filter, List.mem_range] at hmem
    exact ⟨n, of_decide_eq_true hmem.2, by omega, rfl⟩
  · rintro ⟨n, hleast, hreach, rfl⟩
    have hmem : n ∈ (List.range (reach p most s + 1)).filter (least ≤ ·) := by
      rw [List.mem_filter, List.mem_range]
      exact ⟨by omega, decide_eq_true hleast⟩
    refine ⟨n, ?_, rfl⟩
    cases lazy with
    | true => exact hmem
    | false => exact List.mem_reverse.mpr hmem

theorem mem_seq : m ∈ run (seq r r') s ↔
    ∃ m₁ ∈ run r s, ∃ m₂ ∈ run r' m₁.rest, m₁.append m₂ = m := by
  rw [run_seq, List.mem_flatMap]
  constructor
  · rintro ⟨m₁, h₁, hm⟩
    obtain ⟨m₂, h₂, heq⟩ := List.mem_map.mp hm
    exact ⟨m₁, h₁, m₂, h₂, heq⟩
  · rintro ⟨m₁, h₁, m₂, h₂, heq⟩
    exact ⟨m₁, h₁, List.mem_map.mpr ⟨m₂, h₂, heq⟩⟩

/-- A match splits the text. -/
theorem taken_append_rest (h : m ∈ run r s) : m.taken ++ m.rest = s := by
  induction r generalizing s m with
  | chars p least most lazy =>
      obtain ⟨n, -, -, rfl⟩ := mem_chars.mp h
      exact List.take_append_drop n s
  | group name r ih =>
      obtain ⟨m', hm', rfl⟩ := List.mem_map.mp h
      have hsplit := ih hm'
      exact hsplit
  | seq r r' ih ih' =>
      obtain ⟨m₁, h₁, m₂, h₂, rfl⟩ := mem_seq.mp h
      rw [Match.append, List.append_assoc, ih' h₂, ih h₁]
  | alt r r' ih ih' =>
      rcases List.mem_append.mp h with h | h
      · exact ih h
      · exact ih' h
  | ahead r ih =>
      obtain ⟨m', -, rfl⟩ := List.mem_map.mp h
      rfl
  | last =>
      rw [run_last] at h
      split_ifs at h
      · rw [List.mem_singleton.mp h]
        rfl
      · cases h

theorem run_seq_of_left (h : run r s = []) : run (seq r r') s = [] := by
  rw [run_seq, h]
  rfl

theorem run_seq_of_right (h : ∀ m ∈ run r s, run r' m.rest = []) : run (seq r r') s = [] := by
  rw [List.eq_nil_iff_forall_not_mem]
  intro m hm
  obtain ⟨m₁, h₁, m₂, h₂, -⟩ := mem_seq.mp hm
  rw [h m₁ h₁] at h₂
  cases h₂

/-- Grouping does not matter. -/
theorem run_seq_assoc (r r' r'' : Pattern) (s : Text) :
    run (seq (seq r r') r'') s = run (seq r (seq r' r'')) s := by
  have happend : ∀ m m' m'' : Match, (m.append m').append m'' = m.append (m'.append m'') := by
    intro m m' m''
    simp only [Match.append, List.append_assoc]
  simp only [run_seq, List.flatMap_assoc, List.flatMap_map, List.map_flatMap, List.map_map]
  congr 1
  funext m
  congr 1
  funext m'
  have hrest : (m.append m').rest = m'.rest := rfl
  rw [hrest]
  apply List.map_congr_left
  intro m'' _
  exact happend m m' m''

theorem run_seqs_congr {r r' : Pattern} (h : ∀ s, run r s = run r' s) (others : List Pattern)
    (s : Text) : run (seqs r others) s = run (seqs r' others) s := by
  induction others generalizing r r' s with
  | nil => exact h s
  | cons next others ih =>
      apply ih
      intro s
      rw [run_seq, run_seq, h]

/-- The first pattern, then the others. -/
theorem run_seqs_cons (r r' : Pattern) (others : List Pattern) (s : Text) :
    run (seqs r (r' :: others)) s = run (seq r (seqs r' others)) s := by
  induction others generalizing r' s with
  | nil => rfl
  | cons next others ih =>
      have hassoc : run (seqs (seq (seq r r') next) others) s =
          run (seqs (seq r (seq r' next)) others) s :=
        run_seqs_congr (fun s => run_seq_assoc r r' next s) others s
      exact hassoc.trans (ih (seq r' next) s)

/-- Without a match of the first ones there is none. -/
theorem run_seqs_of_left (h : run r s = []) (others : List Pattern) :
    run (seqs r others) s = [] := by
  induction others generalizing r with
  | nil => exact h
  | cons next others ih => exact ih (run_seq_of_left h)

end Runs

section First
variable {r r' : Pattern} {s : Text} {m m' : Match} {p : Char → Bool} {least n : ℕ}
  {most : Option ℕ} {name : String}

theorem matchStart_group :
    matchStart (group name r) s =
      (matchStart r s).map fun m => { m with groups := (name, m.taken) :: m.groups } :=
  List.head?_map

theorem matchStart_seq (h : matchStart r s = some m) (h' : matchStart r' m.rest = some m') :
    matchStart (seq r r') s = some (m.append m') := by
  obtain ⟨others, hrun⟩ := List.head?_eq_some_iff.mp h
  obtain ⟨others', hrun'⟩ := List.head?_eq_some_iff.mp h'
  rw [matchStart, run_seq, hrun, List.flatMap_cons, hrun']
  rfl

/-- As many characters as there are. -/
theorem matchStart_greedy (hreach : reach p most s = n) (hleast : least ≤ n) :
    matchStart (chars p least most false) s = some ⟨s.take n, s.drop n, []⟩ := by
  have hlengths : (List.range (n + 1)).filter (least ≤ ·) =
      (List.range n).filter (least ≤ ·) ++ [n] := by
    rw [List.range_succ, List.filter_append, List.filter_singleton, decide_eq_true hleast]
    rfl
  rw [matchStart, run_chars, hreach, hlengths, if_neg Bool.false_ne_true, List.reverse_append]
  rfl

theorem reach_append {x rest : Text} (hx : ∀ c ∈ x, p c = true)
    (hrest : ∀ c ∈ rest.head?, p c = false) : ((x ++ rest).takeWhile p).length = x.length := by
  rw [List.takeWhile_append_of_pos hx]
  cases rest with
  | nil => simp
  | cons c rest =>
      rw [List.takeWhile_cons, hrest c rfl, if_neg Bool.false_ne_true, List.append_nil]

/-- All characters of a class up to another one. -/
theorem matchStart_all {x rest : Text} (hx : ∀ c ∈ x, p c = true)
    (hrest : ∀ c ∈ rest.head?, p c = false) (hleast : least ≤ x.length) :
    matchStart (chars p least none false) (x ++ rest) = some ⟨x, rest, []⟩ := by
  have hreach : reach p none (x ++ rest) = x.length := reach_append hx hrest
  rw [matchStart_greedy hreach hleast, List.take_left, List.drop_left]

theorem matchStart_one {c : Char} (hc : p c = true) :
    matchStart (one p) (c :: s) = some ⟨[c], s, []⟩ := by
  have hreach : reach p (some 1) (c :: s) = 1 := by
    rw [reach, List.takeWhile_cons, if_pos hc, List.length_cons]
    omega
  rw [one, matchStart_greedy hreach le_rfl]
  rfl

/-- A lazy repetition ends at the first place from which the rest matches. -/
theorem matchStart_lazy (hleast : least ≤ n) (hreach : n ≤ reach p most s)
    (hbefore : ∀ k, least ≤ k → k < n → run r (s.drop k) = [])
    (h : matchStart r (s.drop n) = some m) :
    matchStart (seq (group name (chars p least most true)) r) s =
      some (Match.append ⟨s.take n, s.drop n, [(name, s.take n)]⟩ m) := by
  have hlengths : (List.range (reach p most s + 1)).filter (least ≤ ·) =
      (List.range n).filter (least ≤ ·) ++ n ::
        (((List.range (reach p most s - n)).map Nat.succ).map (n + ·)).filter (least ≤ ·) := by
    have hsum : reach p most s + 1 = n + (reach p most s - n + 1) := by omega
    rw [hsum, List.range_add, List.filter_append, List.range_succ_eq_map, List.map_cons,
      List.filter_cons_of_pos (by simpa using hleast)]
    rfl
  obtain ⟨others, hrun⟩ := List.head?_eq_some_iff.mp h
  rw [matchStart, run_seq, run_group, run_chars, if_pos rfl, hlengths, List.map_append, List.map_append,
    List.flatMap_append, List.map_cons, List.map_cons, List.flatMap_cons, hrun]
  have hnone : ∀ ms : List Match, (∀ m' ∈ ms, run r m'.rest = []) →
      ms.flatMap (fun m' => (run r m'.rest).map m'.append) = [] := by
    intro ms hms
    rw [List.flatMap_eq_nil_iff]
    intro m' hm'
    rw [hms m' hm']
    rfl
  rw [hnone]
  · rfl
  · intro m' hm'
    rw [List.map_map, List.mem_map] at hm'
    obtain ⟨k, hk, rfl⟩ := hm'
    rw [List.mem_filter, List.mem_range] at hk
    exact hbefore k (of_decide_eq_true hk.2) hk.1

end First

section Absence
variable {r r' : Pattern} {s : Text} {p : Char → Bool} {P Q : Char → Prop}

/-- What the last character of every match is. -/
def Ends (P : Char → Prop) (r : Pattern) : Prop :=
  ∀ s, ∀ m ∈ run r s, ∃ x c, m.taken = x ++ [c] ∧ P c

/-- What the first character of every matched text is. -/
def Starts (P : Char → Prop) (r : Pattern) : Prop :=
  ∀ s, run r s ≠ [] → ∃ c ∈ s.head?, P c

/-- All characters taken are of the class. -/
theorem mem_taken {least : ℕ} {most : Option ℕ} {lazy : Bool} {m : Match} {c : Char}
    (hm : m ∈ run (chars p least most lazy) s) (hc : c ∈ m.taken) : p c = true := by
  obtain ⟨n, -, hreach, rfl⟩ := mem_chars.mp hm
  have hle := hreach.trans (reach_le p most s)
  have hpre : s.take n <+: s.takeWhile p :=
    List.prefix_of_prefix_length_le (List.take_prefix n s) (List.takeWhile_prefix p)
      ((List.length_take_le n s).trans hle)
  exact List.all_eq_true.mp List.all_takeWhile c (hpre.subset hc)

theorem length_taken {least : ℕ} {most : Option ℕ} {lazy : Bool} {m : Match}
    (hm : m ∈ run (chars p least most lazy) s) : least ≤ m.taken.length := by
  obtain ⟨n, hn, hreach, rfl⟩ := mem_chars.mp hm
  have hle := (hreach.trans (reach_le p most s)).trans (List.takeWhile_prefix p).length_le
  rw [List.length_take]
  omega

theorem mem_one {m : Match} (hm : m ∈ run (one p) s) :
    ∃ c rest, s = c :: rest ∧ p c = true ∧ m = ⟨[c], rest, []⟩ := by
  obtain ⟨n, hn, hreach, rfl⟩ := mem_chars.mp hm
  have hbound : reach p (some 1) s ≤ 1 := Nat.min_le_left _ _
  have hone : n = 1 := by omega
  have hlength := length_taken hm
  subst hone
  cases s with
  | nil => cases hlength
  | cons c rest => exact ⟨c, rest, rfl, mem_taken hm List.mem_cons_self, rfl⟩

theorem ends_chars {least : ℕ} {most : Option ℕ} {lazy : Bool} (hleast : 0 < least)
    (hp : ∀ c, p c = true → P c) : Ends P (chars p least most lazy) := by
  intro s m hm
  have hlength := length_taken hm
  rcases List.eq_nil_or_concat' m.taken with hnil | ⟨x, c, heq⟩
  · rw [hnil, List.length_nil] at hlength
    omega
  · exact ⟨x, c, heq, hp c (mem_taken hm (by simp [heq]))⟩

theorem Ends.seq (h : Ends P r') : Ends P (Pattern.seq r r') := by
  intro s m hm
  obtain ⟨m₁, -, m₂, h₂, rfl⟩ := mem_seq.mp hm
  obtain ⟨x, c, heq, hc⟩ := h _ m₂ h₂
  exact ⟨m₁.taken ++ x, c, by rw [Match.append, heq, List.append_assoc], hc⟩

/-- A repetition that may be empty. -/
theorem Ends.seq_chars {least : ℕ} {most : Option ℕ} {lazy : Bool} (h : Ends P r)
    (hp : ∀ c, p c = true → P c) : Ends P (Pattern.seq r (chars p least most lazy)) := by
  intro s m hm
  obtain ⟨m₁, h₁, m₂, h₂, rfl⟩ := mem_seq.mp hm
  rcases List.eq_nil_or_concat' m₂.taken with hnil | ⟨x, c, heq⟩
  · obtain ⟨x, c, heq, hc⟩ := h s m₁ h₁
    exact ⟨x, c, by rw [Match.append, hnil, heq, List.append_nil], hc⟩
  · exact ⟨m₁.taken ++ x, c, by rw [Match.append, heq, List.append_assoc],
      hp c (mem_taken h₂ (by simp [heq]))⟩

theorem starts_chars {least : ℕ} {most : Option ℕ} {lazy : Bool} (hleast : 0 < least)
    (hp : ∀ c, p c = true → P c) : Starts P (chars p least most lazy) := by
  intro s hs
  obtain ⟨m, hm⟩ := List.exists_mem_of_ne_nil _ hs
  have hlength := length_taken hm
  have hsplit := taken_append_rest hm
  cases htaken : m.taken with
  | nil =>
      rw [htaken, List.length_nil] at hlength
      omega
  | cons c x =>
      rw [htaken] at hsplit
      exact ⟨c, by rw [← hsplit]; rfl, hp c (mem_taken hm (by simp [htaken]))⟩

theorem Starts.group {name : String} (h : Starts P r) : Starts P (Pattern.group name r) := by
  intro s hs
  apply h s
  intro hnil
  rw [run_group, hnil] at hs
  exact hs rfl

/-- No two characters are next to each other of which one ends a match and the other begins one. -/
theorem run_seq_of_chain (h : Ends P r) (h' : Starts Q r')
    (hs : s.IsChain fun c d => Q d → ¬ P c) : run (seq r r') s = [] := by
  apply run_seq_of_right
  intro m hm
  by_contra hne
  obtain ⟨d, hd, hQ⟩ := h' m.rest hne
  obtain ⟨x, c, htaken, hP⟩ := h s m hm
  obtain ⟨rest, hrest⟩ := List.head?_eq_some_iff.mp hd
  have hsplit := taken_append_rest hm
  rw [htaken, hrest, List.append_assoc] at hsplit
  rw [← hsplit, List.singleton_append, List.isChain_append_cons_cons] at hs
  exact hs.2.1 hQ hP

end Absence

section Removal
variable {r : Pattern} {s : Text}

theorem remove_of_absent (h : ∀ u, u <:+ s → run r u = []) : remove r s = s := by
  induction s with
  | nil => rfl
  | cons c s ih =>
      have hhead := h (c :: s) List.suffix_rfl
      have hrest := ih fun u hu => h u (hu.trans (List.suffix_cons c s))
      rw [remove] at hrest ⊢
      rw [removeFrom, hhead, List.find?_nil]
      exact congrArg (c :: ·) hrest

theorem removeFrom_sublist (skip : ℕ) : (removeFrom r skip s).Sublist s := by
  induction s generalizing skip with
  | nil => rw [removeFrom]
  | cons c s ih =>
      cases skip with
      | succ skip => exact (ih skip).cons c
      | zero =>
          rw [removeFrom]
          split
          · exact (ih 0).cons_cons c
          · exact (ih _).cons c

theorem remove_sublist (r : Pattern) (s : Text) : (remove r s).Sublist s := removeFrom_sublist 0

end Removal

section Confinement
variable {r : Pattern} {w v : Text} {c : Char}

/-- No match takes a character, or looks at what follows. -/
def avoids (c : Char) : Pattern → Bool
  | chars p _ _ _ => !p c
  | group _ r => avoids c r
  | seq r r' => avoids c r && avoids c r'
  | alt r r' => avoids c r && avoids c r'
  | ahead _ => false
  | last => false

/-- Such a pattern matches up to the character as if the text ended there. -/
theorem run_append_of_avoids (h : avoids c r = true) :
    run r (w ++ c :: v) = (run r w).map fun m => { m with rest := m.rest ++ c :: v } := by
  induction r generalizing w with
  | chars p least most lazy =>
      have hc : p c = false := by simpa [avoids] using h
      have htake : ((w ++ c :: v).takeWhile p) = w.takeWhile p := by
        induction w with
        | nil => rw [List.nil_append, List.takeWhile_cons, hc, if_neg Bool.false_ne_true]; rfl
        | cons d w ih =>
            rw [List.cons_append, List.takeWhile_cons, List.takeWhile_cons, ih]
      have hreach : reach p most (w ++ c :: v) = reach p most w := by
        rw [reach.eq_def, reach.eq_def, htake]
      rw [run_chars, run_chars, hreach, List.map_map]
      apply List.map_congr_left
      intro n hn
      have hle : n ≤ w.length := by
        have hmem : n ∈ (List.range (reach p most w + 1)).filter (least ≤ ·) := by
          cases lazy with
          | true => exact hn
          | false => exact List.mem_reverse.mp hn
        rw [List.mem_filter, List.mem_range] at hmem
        have hbound := (reach_le p most w).trans (List.takeWhile_prefix p).length_le
        omega
      rw [List.take_append_of_le_length hle, List.drop_append_of_le_length hle]
      rfl
  | group name r ih =>
      rw [run_group, run_group, ih h, List.map_map, List.map_map]
      rfl
  | seq r r' ih ih' =>
      rw [avoids, Bool.and_eq_true] at h
      rw [run_seq, run_seq, ih h.1, List.flatMap_map, List.map_flatMap]
      congr 1
      funext m
      rw [ih' h.2, List.map_map, List.map_map]
      rfl
  | alt r r' ih ih' =>
      rw [avoids, Bool.and_eq_true] at h
      rw [run_alt, run_alt, ih h.1, ih' h.2, List.map_append]
  | ahead r ih => cases h
  | last => cases h

end Confinement

section Groups
variable {r : Pattern} {s : Text} {m : Match} {name : String}

/-- Whether every match takes a character. -/
def consumes : Pattern → Bool
  | chars _ least _ _ => 0 < least
  | group _ r => consumes r
  | seq r r' => consumes r || consumes r'
  | alt r r' => consumes r && consumes r'
  | ahead _ => false
  | last => false

/-- Whether a group of this name is in the pattern. -/
def mentions (name : String) : Pattern → Bool
  | chars _ _ _ _ => false
  | group other r => name = other || mentions name r
  | seq r r' => mentions name r || mentions name r'
  | alt r r' => mentions name r || mentions name r'
  | ahead r => mentions name r
  | last => false

/-- Whether the last group of this name in every match has a text. -/
def captures (name : String) : Pattern → Bool
  | chars _ _ _ _ => false
  | group other r => if name = other then consumes r else captures name r
  | seq r r' => (captures name r && !mentions name r') || captures name r'
  | alt r r' => captures name r && captures name r'
  | ahead r => captures name r
  | last => false

theorem taken_ne_nil (h : consumes r = true) (hm : m ∈ run r s) : m.taken ≠ [] := by
  induction r generalizing s m with
  | chars p least most lazy =>
      rw [consumes, decide_eq_true_eq] at h
      have hlength := length_taken hm
      exact List.length_pos_iff.mp (h.trans_le hlength)
  | group other r ih =>
      obtain ⟨m', hm', rfl⟩ := List.mem_map.mp hm
      have htaken := ih h hm'
      exact htaken
  | seq r r' ih ih' =>
      obtain ⟨m₁, h₁, m₂, h₂, rfl⟩ := mem_seq.mp hm
      rw [consumes, Bool.or_eq_true] at h
      intro hnil
      obtain ⟨hnil, hnil'⟩ := List.append_eq_nil_iff.mp hnil
      cases h with
      | inl h => exact ih h h₁ hnil
      | inr h => exact ih' h h₂ hnil'
  | alt r r' ih ih' =>
      rw [consumes, Bool.and_eq_true] at h
      cases List.mem_append.mp hm with
      | inl hm => exact ih h.1 hm
      | inr hm => exact ih' h.2 hm
  | ahead r ih => cases h
  | last => cases h

theorem lookup_of_not_mentions (h : mentions name r = false) (hm : m ∈ run r s) :
    m.groups.lookup name = none := by
  induction r generalizing s m with
  | chars p least most lazy =>
      obtain ⟨n, -, -, rfl⟩ := mem_chars.mp hm
      rfl
  | group other r ih =>
      obtain ⟨m', hm', rfl⟩ := List.mem_map.mp hm
      rw [mentions, Bool.or_eq_false_iff, decide_eq_false_iff_not] at h
      rw [List.lookup_cons, beq_false_of_ne h.1, ih h.2 hm']
  | seq r r' ih ih' =>
      obtain ⟨m₁, h₁, m₂, h₂, rfl⟩ := mem_seq.mp hm
      rw [mentions, Bool.or_eq_false_iff] at h
      rw [Match.append, List.lookup_append, ih h.1 h₁, ih' h.2 h₂]
      rfl
  | alt r r' ih ih' =>
      rw [mentions, Bool.or_eq_false_iff] at h
      cases List.mem_append.mp hm with
      | inl hm => exact ih h.1 hm
      | inr hm => exact ih' h.2 hm
  | ahead r ih =>
      obtain ⟨m', hm', rfl⟩ := List.mem_map.mp hm
      have hrun := List.mem_of_mem_head? (Option.mem_toList.mp hm')
      have hgroups := ih h hrun
      exact hgroups
  | last =>
      rw [run_last] at hm
      split_ifs at hm
      · rw [List.mem_singleton.mp hm]
        rfl
      · cases hm

theorem lookup_of_captures (h : captures name r = true) (hm : m ∈ run r s) :
    ∃ text, text ≠ [] ∧ m.groups.lookup name = some text := by
  induction r generalizing s m with
  | chars p least most lazy => cases h
  | group other r ih =>
      obtain ⟨m', hm', rfl⟩ := List.mem_map.mp hm
      rw [captures] at h
      split_ifs at h with hname
      · rw [hname, List.lookup_cons_self]
        exact ⟨m'.taken, taken_ne_nil h hm', rfl⟩
      · rw [List.lookup_cons, beq_false_of_ne hname]
        exact ih h hm'
  | seq r r' ih ih' =>
      obtain ⟨m₁, h₁, m₂, h₂, rfl⟩ := mem_seq.mp hm
      rw [captures, Bool.or_eq_true, Bool.and_eq_true, Bool.not_eq_true'] at h
      rw [Match.append, List.lookup_append]
      cases h with
      | inl h =>
          rw [lookup_of_not_mentions h.2 h₂]
          exact ih h.1 h₁
      | inr h =>
          obtain ⟨text, hne, hlookup⟩ := ih' h h₂
          rw [hlookup]
          exact ⟨text, hne, rfl⟩
  | alt r r' ih ih' =>
      rw [captures, Bool.and_eq_true] at h
      cases List.mem_append.mp hm with
      | inl hm => exact ih h.1 hm
      | inr hm => exact ih' h.2 hm
  | ahead r ih =>
      obtain ⟨m', hm', rfl⟩ := List.mem_map.mp hm
      have hrun := List.mem_of_mem_head? (Option.mem_toList.mp hm')
      have hgroups := ih h hrun
      exact hgroups
  | last => cases h

end Groups

end Pattern

end PythonRegex
