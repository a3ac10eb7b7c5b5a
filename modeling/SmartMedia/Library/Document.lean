import Mathlib.Data.List.Nodup
import Mathlib.Tactic.Common

/-!
# Documents

Trees of scalars, lists and dictionaries, as JSON and YAML have them. A dictionary is the
list of its entries in order; it has each key once when it is well formed. The deep merge
of a patch into a document descends where both are dictionaries and takes the patch
everywhere else; a patch with the keys of the document it is merged into replaces it.
-/

/-- A tree over keys `κ` and scalars `α`. -/
inductive Document (κ α : Type) where
  | scalar (value : α)
  | list (items : List (Document κ α))
  | dict (entries : List (κ × Document κ α))

namespace Document
variable {κ α : Type}

/-- The entries after `d[key] = value`: a new key comes last. -/
def setEntry [DecidableEq κ] (key : κ) (value : Document κ α) :
    List (κ × Document κ α) → List (κ × Document κ α)
  | [] => [(key, value)]
  | (k, v) :: entries =>
      if k = key then (k, value) :: entries else (k, v) :: setEntry key value entries

/-- What `d.get(key)` finds. -/
def getEntry [DecidableEq κ] (key : κ) : List (κ × Document κ α) → Option (Document κ α)
  | [] => none
  | (k, v) :: entries => if k = key then some v else getEntry key entries

mutual

/-- `patch` over what a key has been mapped to. -/
def mergeOver [DecidableEq κ] : Option (Document κ α) → Document κ α → Document κ α
  | some (.dict base), .dict patch => .dict (mergeEntries base patch)
  | _, patch => patch

/-- The deep merge of two dictionaries. -/
def mergeEntries [DecidableEq κ] :
    List (κ × Document κ α) → List (κ × Document κ α) → List (κ × Document κ α)
  | base, [] => base
  | base, (key, value) :: patch =>
      mergeEntries (setEntry key (mergeOver (getEntry key base) value) base) patch

end

mutual

/-- Every dictionary in it has each key once. -/
def WellFormed : Document κ α → Prop
  | .scalar _ => True
  | .list items => WellFormedItems items
  | .dict entries => (entries.map Prod.fst).Nodup ∧ WellFormedEntries entries

def WellFormedItems : List (Document κ α) → Prop
  | [] => True
  | item :: items => item.WellFormed ∧ WellFormedItems items

def WellFormedEntries : List (κ × Document κ α) → Prop
  | [] => True
  | (_, value) :: entries => value.WellFormed ∧ WellFormedEntries entries

end

mutual

/-- Where both are dictionaries they have the same keys, each once and in the same order. -/
def Covers : Document κ α → Document κ α → Prop
  | .dict base, .dict patch => (patch.map Prod.fst).Nodup ∧ CoversEntries base patch
  | _, _ => True

def CoversEntries : List (κ × Document κ α) → List (κ × Document κ α) → Prop
  | [], [] => True
  | (k, base) :: bases, (k', patch) :: patches =>
      k = k' ∧ Covers base patch ∧ CoversEntries bases patches
  | _, _ => False

end

section Entries
variable [DecidableEq κ] {key : κ} {value old : Document κ α}
variable {front entries : List (κ × Document κ α)}

omit [DecidableEq κ] in
/-- Where no key is repeated, a key does not stand in front of itself. -/
theorem notMem_front (h : ((front ++ (key, value) :: entries).map Prod.fst).Nodup) :
    key ∉ front.map Prod.fst := by
  rw [List.map_append, List.map_cons, List.nodup_append] at h
  intro hmem
  exact h.2.2 key hmem key List.mem_cons_self rfl

theorem getEntry_append_cons (h : key ∉ front.map Prod.fst) :
    getEntry key (front ++ (key, value) :: entries) = some value := by
  induction front with
  | nil => simp [getEntry]
  | cons entry front ih =>
      rw [List.map_cons, List.mem_cons, not_or] at h
      obtain ⟨k, v⟩ := entry
      have hne : ¬ k = key := fun he => h.1 he.symm
      rw [List.cons_append, getEntry, if_neg hne]
      exact ih h.2

theorem setEntry_append_cons (h : key ∉ front.map Prod.fst) :
    setEntry key value (front ++ (key, old) :: entries) = front ++ (key, value) :: entries := by
  induction front with
  | nil => simp [setEntry]
  | cons entry front ih =>
      rw [List.map_cons, List.mem_cons, not_or] at h
      obtain ⟨k, v⟩ := entry
      have hne : ¬ k = key := fun he => h.1 he.symm
      rw [List.cons_append, setEntry, if_neg hne, ih h.2, List.cons_append]

end Entries

mutual

theorem WellFormed.covers_self : ∀ {v : Document κ α}, v.WellFormed → v.Covers v
  | .scalar _, _ => trivial
  | .list _, _ => trivial
  | .dict _, h => ⟨h.1, WellFormedEntries.covers_self h.2⟩

theorem WellFormedEntries.covers_self : ∀ {entries : List (κ × Document κ α)},
    WellFormedEntries entries → CoversEntries entries entries
  | [], _ => trivial
  | _ :: _, h => ⟨rfl, h.1.covers_self, WellFormedEntries.covers_self h.2⟩

end

mutual

/-- A patch that covers a document replaces it. -/
theorem mergeOver_eq [DecidableEq κ] : ∀ {base patch : Document κ α}, base.Covers patch →
    mergeOver (some base) patch = patch
  | .dict base, .dict patch, h => by
      have hmerge : mergeEntries base patch = patch := mergeEntries_eq [] h.2 h.1
      rw [mergeOver, hmerge]
  | .scalar _, .dict _, _ => rfl
  | .list _, .dict _, _ => rfl
  | _, .scalar _, _ => by rw [mergeOver]; simp
  | _, .list _, _ => by rw [mergeOver]; simp

/-- The entries already merged stand in front. -/
theorem mergeEntries_eq [DecidableEq κ] : ∀ (front : List (κ × Document κ α))
    {base patch : List (κ × Document κ α)}, CoversEntries base patch →
      ((front ++ patch).map Prod.fst).Nodup → mergeEntries (front ++ base) patch = front ++ patch
  | front, [], [], _, _ => by rw [mergeEntries]
  | front, (k, base) :: bases, (k', patch) :: patches, h, hnodup => by
      obtain ⟨rfl, hcovers, hrest⟩ := h
      have hfront : k ∉ front.map Prod.fst := notMem_front hnodup
      have hnodup' : (((front ++ [(k, patch)]) ++ patches).map Prod.fst).Nodup := by
        rw [List.append_assoc]
        exact hnodup
      rw [mergeEntries, getEntry_append_cons hfront, mergeOver_eq hcovers,
        setEntry_append_cons hfront]
      have hmerge := mergeEntries_eq _ hrest hnodup'
      rw [List.append_assoc, List.append_assoc] at hmerge
      exact hmerge
  | _, [], _ :: _, h, _ => h.elim
  | _, _ :: _, [], h, _ => h.elim

end

end Document
