import Mathlib.Data.Finset.Card
import SmartMedia.Library.FileMap

/-!
# Paths

The part of `os.path` the rename services use, on paths as lists of characters, and
the search for a free name (`while os.path.exists(f"{base}_{counter}{ext}")`).
-/
namespace SmartMedia.Media

abbrev Path := List Char

/-- Lists of paths are searched with `==`. -/
instance : LawfulBEq Path := inferInstanceAs (LawfulBEq (List Char))

/-- The characters `str.strip` removes. -/
def isSpace (c : Char) : Bool :=
  let n := c.toNat
  (9 ≤ n && n ≤ 13) || (28 ≤ n && n ≤ 32) || n = 0x85 || n = 0xa0 || n = 0x1680 ||
    (0x2000 ≤ n && n ≤ 0x200a) || n = 0x2028 || n = 0x2029 || n = 0x202f || n = 0x205f ||
    n = 0x3000

def strip (s : Path) : Path := ((s.dropWhile isSpace).reverse.dropWhile isSpace).reverse

/-- `os.path.splitext`: the last dot of the file name, unless only dots stand before it. -/
def splitext (p : Path) : Path × Path :=
  let tail := p.reverse.takeWhile fun c => c ≠ '/' && c ≠ '.'
  match p.reverse.drop tail.length with
  | '.' :: rest =>
      if (rest.takeWhile (· ≠ '/')).any (· ≠ '.') then (rest.reverse, '.' :: tail.reverse)
      else (p, [])
  | _ => (p, [])

/-- `os.path.dirname`. -/
def dirname (p : Path) : Path :=
  let head := p.reverse.dropWhile (· ≠ '/')
  if head.all (· = '/') then head else (head.dropWhile (· = '/')).reverse

/-- `os.path.basename`. -/
def basename (p : Path) : Path := (p.reverse.takeWhile (· ≠ '/')).reverse

/-- `os.path.join` of two parts. -/
def join (a b : Path) : Path :=
  if b.head? = some '/' then b
  else if a = [] ∨ a.getLast? = some '/' then a ++ b
  else a ++ '/' :: b

/-- `f"{base}_{counter}{ext}"`. -/
def numbered (base ext : Path) (counter : ℕ) : Path :=
  base ++ ('_' :: Nat.toDigits 10 counter ++ ext)

theorem numbered_injective (base ext : Path) : Function.Injective (numbered base ext) := by
  intro m n h
  have hcons := List.append_cancel_left h
  have hdigits : Nat.toDigits 10 m = Nat.toDigits 10 n :=
    List.append_cancel_right (List.cons.inj hcons).2
  rw [← Nat.ofDigitChars_ten_toDigits (n := m), hdigits, Nat.ofDigitChars_ten_toDigits]

variable {β : Type}

/-- The counter the search stops at, from `counter` on and with `fuel` tests at most. -/
def firstFree (fs : FileMap Path β) (base ext : Path) : ℕ → ℕ → ℕ
  | 0, counter => counter
  | fuel + 1, counter =>
      if numbered base ext counter ∈ fs then firstFree fs base ext fuel (counter + 1) else counter

/-- The target itself, or its first free numbered variant. -/
def freePath (fs : FileMap Path β) (p : Path) : Path :=
  if p ∈ fs then
    numbered (splitext p).1 (splitext p).2
      (firstFree fs (splitext p).1 (splitext p).2 (fs.keys.card + 1) 1)
  else p

/-- The search ends at a free name or has found all the tested ones taken. -/
theorem firstFree_spec (fs : FileMap Path β) (base ext : Path) (fuel counter : ℕ) :
    numbered base ext (firstFree fs base ext fuel counter) ∉ fs ∨
      ∀ i < fuel, numbered base ext (counter + i) ∈ fs := by
  induction fuel generalizing counter with
  | zero => exact .inr fun i hi => by omega
  | succ fuel ih =>
      simp only [firstFree]
      split_ifs with hc
      · refine (ih (counter + 1)).imp_right fun h i hi => ?_
        rcases i with _ | i
        · exact hc
        · have hnext := h i (by omega)
          rwa [Nat.add_right_comm] at hnext
      · exact .inl hc

/-- A file map is finite, so the search always ends at a free name. -/
theorem freePath_notMem (fs : FileMap Path β) (p : Path) : freePath fs p ∉ fs := by
  unfold freePath
  split_ifs with hp
  · rcases firstFree_spec fs (splitext p).1 (splitext p).2 (fs.keys.card + 1) 1 with h | h
    · exact h
    · exfalso
      -- more distinct names taken than there are files
      have hsub : (Finset.range (fs.keys.card + 1)).image
          (fun i => numbered (splitext p).1 (splitext p).2 (1 + i)) ⊆ fs.keys := by
        intro q hq
        obtain ⟨i, hi, rfl⟩ := Finset.mem_image.mp hq
        exact Finmap.mem_keys.mpr (h i (Finset.mem_range.mp hi))
      have hinj : Function.Injective
          fun i => numbered (splitext p).1 (splitext p).2 (1 + i) := fun i j hij =>
        Nat.add_left_cancel (numbered_injective _ _ hij)
      have hcard := Finset.card_le_card hsub
      rw [Finset.card_image_of_injective _ hinj, Finset.card_range] at hcard
      omega
  · exact hp

theorem freePath_of_notMem {fs : FileMap Path β} {p : Path} (h : p ∉ fs) : freePath fs p = p :=
  if_neg h

theorem freePath_ne_nil {fs : FileMap Path β} {p : Path} (h : p ≠ []) : freePath fs p ≠ [] := by
  unfold freePath
  split_ifs
  · simp [numbered]
  · exact h

example : splitext "/m/Film.2020.mkv".toList = ("/m/Film.2020".toList, ".mkv".toList) := by
  decide

end SmartMedia.Media
