import SmartMedia.Library.PythonText
import SmartMedia.Strm.StrmUrl

/-!
# Network locations

The properties `hostname` and `port` of what `urllib.parse` returns.
-/
namespace SmartMedia.Urls
open PythonText Strm

/-- `_hostinfo`: the host, without the brackets of an IPv6 address, and the port. -/
def hostinfo (netloc : Text) : Text × Option Text :=
  let info := (netloc.reverse.takeWhile (· ≠ '@')).reverse
  let (host, port) :=
    if '[' ∈ info then
      let (host, after) := cutAt [']'] (cutAt ['['] info).2.tail
      (host, (cutAt [':'] after.tail).2.tail)
    else
      let (host, port) := cutAt [':'] info
      (host, port.tail)
  (host, if port = [] then none else some port)

/-- The host in lower case, up to a zone. -/
def hostname (lowering : Lowering) (netloc : Text) : Option Text :=
  let host := (hostinfo netloc).1
  if host = [] then none
  else
    let (name, zone) := cutAt ['%'] host
    some (lowering.lower name ++ zone)

section Cuts
variable {delimiters : List Char} {text netloc : Text} {c : Char}

theorem mem_of_mem_cutAt_fst (h : c ∈ (cutAt delimiters text).1) : c ∈ text ∧ c ∉ delimiters := by
  rw [cutAt] at h
  exact ⟨(List.takeWhile_prefix _).mem h, of_decide_eq_true (List.all_eq_true.mp List.all_takeWhile c h)⟩

theorem mem_of_mem_cutAt_snd (h : c ∈ (cutAt delimiters text).2) : c ∈ text :=
  List.mem_of_mem_drop h

theorem cutAt_snd_eq (delimiters : List Char) (text : Text) :
    (cutAt delimiters text).2 = text.dropWhile (· ∉ delimiters) := by
  rw [cutAt]
  exact (congrArg (List.drop _) List.takeWhile_append_dropWhile.symm).trans List.drop_left

/-- What is left begins with a delimiter. -/
theorem cutAt_snd (delimiters : List Char) (text : Text) :
    (cutAt delimiters text).2 = [] ∨
      ∃ c ∈ delimiters, ∃ rest, (cutAt delimiters text).2 = c :: rest := by
  have hhead := List.head?_dropWhile_not (· ∉ delimiters) text
  rw [cutAt_snd_eq]
  cases hcase : text.dropWhile (· ∉ delimiters) with
  | nil => exact .inl rfl
  | cons c rest =>
      rw [hcase] at hhead
      exact .inr ⟨c, by simpa using hhead, rest, rfl⟩

theorem mem_of_mem_hostinfo (h : c ∈ (hostinfo netloc).1) : c ∈ netloc := by
  have hinfo : ∀ c ∈ (netloc.reverse.takeWhile (· ≠ '@')).reverse, c ∈ netloc := by
    intro c hc
    exact List.mem_reverse.mp ((List.takeWhile_prefix _).mem (List.mem_reverse.mp hc))
  rw [hostinfo] at h
  dsimp only at h
  split at h
  · exact hinfo c (mem_of_mem_cutAt_snd (List.mem_of_mem_tail (mem_of_mem_cutAt_fst h).1))
  · exact hinfo c (mem_of_mem_cutAt_fst h).1

end Cuts

end SmartMedia.Urls
