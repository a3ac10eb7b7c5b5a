import Mathlib.Algebra.GroupWithZero.Nat
import Mathlib.Algebra.Order.BigOperators.Group.List
import Mathlib.Algebra.Order.Group.Nat
import Mathlib.Data.List.Chain
import Mathlib.Data.List.Dedup
import Mathlib.Data.List.Nodup
import Mathlib.Tactic.Common

/-!
# Depth-first search with a limit

A stack holds nodes with the depth at which they were met. A node is expanded at its first turn, and
dropped below the limit. Expanding a node may change a state and need not find all its children.
-/
namespace DepthSearch
variable {α σ : Type}

/-- The nodes that are met after at most so many steps, as often as there are ways to them. -/
def within (children : α → List α) : ℕ → List α → List α
  | 0, roots => roots
  | steps + 1, roots => roots ++ within children steps (roots.flatMap children)

/-- A walk from `start`. -/
def IsWalk (children : α → List α) (start : α) (walk : List α) : Prop :=
  walk.head? = some start ∧ walk.IsChain fun u v => v ∈ children u

section Reached
variable {children : α → List α} {start u v : α} {way : List α} {steps steps' : ℕ} {roots : List α}

theorem mem_within_succ :
    v ∈ within children (steps + 1) roots ↔
      v ∈ within children steps roots ∨ ∃ u ∈ within children steps roots, v ∈ children u := by
  induction steps generalizing roots with
  | zero => simp [within]
  | succ steps ih =>
      rw [within, List.mem_append, ih, within, List.mem_append]
      constructor
      · rintro (hroot | hmem | ⟨u, hu, hv⟩)
        · exact .inl (.inl hroot)
        · exact .inl (.inr hmem)
        · exact .inr ⟨u, List.mem_append_right _ hu, hv⟩
      · rintro ((hroot | hmem) | ⟨u, hu, hv⟩)
        · exact .inl hroot
        · exact .inr (.inl hmem)
        · rcases List.mem_append.mp hu with hroot | hmem
          · have hlevel : v ∈ roots.flatMap children := List.mem_flatMap.mpr ⟨u, hroot, hv⟩
            cases steps with
            | zero => exact .inr (.inl hlevel)
            | succ steps => exact .inr (.inl (List.mem_append_left _ hlevel))
          · exact .inr (.inr ⟨u, hmem, hv⟩)

theorem within_mono (h : steps ≤ steps') (hv : v ∈ within children steps roots) :
    v ∈ within children steps' roots := by
  induction h with
  | refl => exact hv
  | step _ ih => exact mem_within_succ.mpr (.inl ih)

theorem mem_within_roots : v ∈ within children steps roots ↔
    ∃ root ∈ roots, v ∈ within children steps [root] := by
  induction steps generalizing v with
  | zero => simp [within]
  | succ steps ih =>
      simp only [mem_within_succ, ih]
      constructor
      · rintro (⟨root, hroot, hv⟩ | ⟨u, ⟨root, hroot, hu⟩, hv⟩)
        · exact ⟨root, hroot, .inl hv⟩
        · exact ⟨root, hroot, .inr ⟨u, hu, hv⟩⟩
      · rintro ⟨root, hroot, hv | ⟨u, hu, hv⟩⟩
        · exact .inl ⟨root, hroot, hv⟩
        · exact .inr ⟨u, ⟨root, hroot, hu⟩, hv⟩

theorem isWalk_append_pair : IsWalk children start (way ++ [u, v]) ↔
    IsWalk children start (way ++ [u]) ∧ v ∈ children u := by
  rw [IsWalk, IsWalk, List.isChain_append_cons_cons]
  have hhead : (way ++ [u, v]).head? = (way ++ [u]).head? := by
    cases way <;> rfl
  rw [hhead]
  constructor
  · rintro ⟨hstart, hchain, hchild, -⟩
    exact ⟨⟨hstart, hchain⟩, hchild⟩
  · rintro ⟨⟨hstart, hchain⟩, hchild⟩
    exact ⟨hstart, hchain, hchild, List.isChain_singleton v⟩

/-- A walk leads to a node within its length. -/
theorem IsWalk.mem_within (h : IsWalk children start (way ++ [v])) :
    v ∈ within children way.length [start] := by
  induction way using List.reverseRecOn generalizing v with
  | nil =>
      obtain rfl : v = start := Option.some.inj h.1
      exact List.mem_singleton_self v
  | append_singleton way u ih =>
      rw [List.append_assoc, List.singleton_append, isWalk_append_pair] at h
      rw [List.length_append, List.length_singleton, mem_within_succ]
      exact .inr ⟨u, ih h.1, h.2⟩

end Reached

variable [DecidableEq α]

/-- The children that were not visited, the last one on top of the stack. -/
def pushAll (visited : List α) (depth : ℕ) (children : List α) (stack : List (α × ℕ)) :
    List (α × ℕ) :=
  ((children.filter (· ∉ visited)).map fun c => (c, depth)).reverse ++ stack

/-- The visited nodes and the state at the end, if the fuel suffices. -/
def search (expand : σ → α → List α × σ) (limit : ℕ) :
    ℕ → List (α × ℕ) → List α → σ → Option (List α × σ)
  | _, [], visited, s => some (visited, s)
  | 0, _ :: _, _, _ => none
  | fuel + 1, (v, depth) :: stack, visited, s =>
      if limit < depth then search expand limit fuel stack visited s
      else if v ∈ visited then search expand limit fuel stack visited s
      else
        search expand limit fuel (pushAll (v :: visited) (depth + 1) (expand s v).1 stack)
          (v :: visited) (expand s v).2

variable {expand : σ → α → List α × σ} {limit fuel depth depth' : ℕ} {stack : List (α × ℕ)}
  {visited visited' way : List α} {s s' : σ} {children : α → List α} {start v c : α}

theorem mem_pushAll {e : α × ℕ} {found : List α} : e ∈ pushAll visited depth found stack ↔
    (e.1 ∈ found ∧ e.1 ∉ visited ∧ e.2 = depth) ∨ e ∈ stack := by
  rw [pushAll, List.mem_append, List.mem_reverse, List.mem_map]
  refine or_congr_left ⟨?_, ?_⟩
  · rintro ⟨c, hc, rfl⟩
    rw [List.mem_filter, decide_eq_true_iff] at hc
    exact ⟨hc.1, hc.2, rfl⟩
  · rintro ⟨hfound, hnew, rfl⟩
    exact ⟨e.1, List.mem_filter.mpr ⟨hfound, decide_eq_true hnew⟩, rfl⟩

section Termination
variable {nodes : List α} {degree : α → ℕ}

/-- How many turns are left at most. -/
def turns (nodes : List α) (degree : α → ℕ) (stack : List (α × ℕ)) (visited : List α) : ℕ :=
  stack.length + ((nodes.filter (· ∉ visited)).map degree).sum

theorem sum_filter_ne (degree : α → ℕ) {l : List α} (h : v ∈ l) :
    ((l.filter (· ≠ v)).map degree).sum + degree v ≤ (l.map degree).sum := by
  induction l with
  | nil => cases h
  | cons u l ih =>
      by_cases heq : u = v
      · subst heq
        have hle : ((l.filter (· ≠ u)).map degree).sum ≤ (l.map degree).sum :=
          List.Sublist.sum_le_sum (List.filter_sublist.map degree) fun _ _ => Nat.zero_le _
        rw [List.filter_cons_of_neg (by simp), List.map_cons, List.sum_cons]
        omega
      · have hmem : v ∈ l := (List.mem_cons.mp h).resolve_left (Ne.symm heq)
        have hrest := ih hmem
        rw [List.filter_cons, if_pos (decide_eq_true heq), List.map_cons, List.map_cons, List.sum_cons,
          List.sum_cons]
        omega

/-- A visit uses up what its children may cost. -/
theorem turns_pushAll {found : List α} (hnode : v ∈ nodes) (hnew : v ∉ visited)
    (hdegree : found.length ≤ degree v) :
    turns nodes degree (pushAll (v :: visited) depth found stack) (v :: visited) + 1 ≤
      turns nodes degree ((v, depth') :: stack) visited := by
  have hfilter : nodes.filter (· ∉ v :: visited) = (nodes.filter (· ∉ visited)).filter (· ≠ v) := by
    rw [List.filter_filter]
    apply List.filter_congr
    intro u _
    rw [← Bool.decide_and, decide_eq_decide, List.mem_cons, not_or]
  have hsum := sum_filter_ne degree
    (List.mem_filter.mpr ⟨hnode, decide_eq_true hnew⟩ : v ∈ nodes.filter (· ∉ visited))
  have hpushed : (found.filter (· ∉ v :: visited)).length ≤ found.length := List.length_filter_le _ _
  rw [turns, turns, hfilter, pushAll, List.length_append, List.length_reverse, List.length_map,
    List.length_cons]
  omega

/-- On finitely many nodes the search ends. -/
theorem isSome_search (nodes : List α) (degree : α → ℕ)
    (hdegree : ∀ s, ∀ v ∈ nodes, (expand s v).1.length ≤ degree v)
    (hclosed : ∀ s, ∀ v ∈ nodes, ∀ c ∈ (expand s v).1, c ∈ nodes)
    (hstack : ∀ e ∈ stack, e.1 ∈ nodes) (hfuel : turns nodes degree stack visited ≤ fuel) :
    (search expand limit fuel stack visited s).isSome = true := by
  induction fuel generalizing stack visited s with
  | zero =>
      cases stack with
      | nil => rfl
      | cons e stack =>
          rw [turns, List.length_cons] at hfuel
          omega
  | succ fuel ih =>
      cases stack with
      | nil => rfl
      | cons e stack =>
          obtain ⟨v, depth⟩ := e
          rw [List.forall_mem_cons] at hstack
          have hrest : turns nodes degree stack visited ≤ fuel := by
            rw [turns, List.length_cons] at hfuel
            rw [turns]
            omega
          rw [search]
          split_ifs with hdeep hseen
          · exact ih hstack.2 hrest
          · exact ih hstack.2 hrest
          · refine ih ?_ ?_
            · intro e he
              rcases mem_pushAll.mp he with ⟨hfound, -, -⟩ | hold
              · exact hclosed s v hstack.1 e.1 hfound
              · exact hstack.2 e hold
            · exact Nat.le_of_succ_le_succ
                ((turns_pushAll hstack.1 hseen (hdegree s v hstack.1)).trans hfuel)

end Termination

section Visits

/-- What is known of the stack and of the visited nodes, when all children are found. -/
structure Explores (children : α → List α) (limit : ℕ) (start : α) (stack : List (α × ℕ))
    (visited : List α) : Prop where
  distinct : visited.Nodup
  started : start ∈ visited ∨ (start, 0) ∈ stack
  met : ∀ e ∈ stack, ∃ way, (∀ u ∈ way, u ∈ visited) ∧ way.Nodup ∧ way.length = e.2 ∧
    IsWalk children start (way ++ [e.1])
  expanded : ∀ v ∈ visited, ∃ way, (∀ u ∈ way ++ [v], u ∈ visited) ∧ (way ++ [v]).Nodup ∧
    IsWalk children start (way ++ [v]) ∧ way.length ≤ limit ∧
      ∀ c ∈ children v, way.length = limit ∨ c ∈ visited ∨ (c, way.length + 1) ∈ stack

omit [DecidableEq α] in
theorem explores_start (children : α → List α) (limit : ℕ) (start : α) :
    Explores children limit start [(start, 0)] [] where
  distinct := List.nodup_nil
  started := .inr (List.mem_singleton_self _)
  met := by
    intro e he
    obtain rfl := List.mem_singleton.mp he
    exact ⟨[], by simp, List.nodup_nil, rfl, rfl, List.isChain_singleton _⟩
  expanded := by simp

omit [DecidableEq α] in
/-- A node that is too deep, or was visited, is dropped. -/
theorem Explores.drop (h : Explores children limit start ((v, depth) :: stack) visited)
    (hdrop : limit < depth ∨ v ∈ visited) : Explores children limit start stack visited where
  distinct := h.distinct
  started := by
    rcases h.started with hseen | hmem
    · exact .inl hseen
    · rcases List.mem_cons.mp hmem with heq | hrest
      · obtain ⟨rfl, rfl⟩ := Prod.mk.inj heq
        exact .inl (hdrop.resolve_left (Nat.not_lt_zero _))
      · exact .inr hrest
  met := fun e he => h.met e (List.mem_cons_of_mem _ he)
  expanded := by
    intro u hu
    obtain ⟨way, hways, hnodup, hwalk, hlimit, hchildren⟩ := h.expanded u hu
    refine ⟨way, hways, hnodup, hwalk, hlimit, ?_⟩
    intro c hc
    rcases hchildren c hc with hend | hseen | hmem
    · exact .inl hend
    · exact .inr (.inl hseen)
    · rcases List.mem_cons.mp hmem with heq | hrest
      · obtain ⟨rfl, rfl⟩ := Prod.mk.inj heq
        rcases hdrop with hdeep | hseen
        · exact .inl (Nat.le_antisymm hlimit (Nat.le_of_lt_succ hdeep))
        · exact .inr (.inl hseen)
      · exact .inr (.inr hrest)

theorem Explores.visit (h : Explores children limit start ((v, depth) :: stack) visited)
    (hdepth : depth ≤ limit) (hnew : v ∉ visited) :
    Explores children limit start
      (pushAll (v :: visited) (depth + 1) (children v) stack) (v :: visited) := by
  obtain ⟨way, hways, hnodup, rfl, hwalk⟩ := h.met _ List.mem_cons_self
  have hfresh : v ∉ way := fun hmem => hnew (hways v hmem)
  have hall : ∀ u ∈ way ++ [v], u ∈ v :: visited := by
    intro u hu
    rcases List.mem_append.mp hu with hmem | hmem
    · exact List.mem_cons_of_mem _ (hways u hmem)
    · exact List.mem_singleton.mp hmem ▸ List.mem_cons_self
  have hdistinct : (way ++ [v]).Nodup := by
    rw [List.nodup_append_comm]
    exact List.nodup_cons.mpr ⟨hfresh, hnodup⟩
  constructor
  · exact List.nodup_cons.mpr ⟨hnew, h.distinct⟩
  · rcases h.started with hseen | hmem
    · exact .inl (List.mem_cons_of_mem _ hseen)
    · rcases List.mem_cons.mp hmem with heq | hrest
      · exact .inl ((Prod.mk.inj heq).1 ▸ List.mem_cons_self)
      · exact .inr (mem_pushAll.mpr (.inr hrest))
  · intro e he
    rcases mem_pushAll.mp he with ⟨hchild, -, hdepth⟩ | hold
    · refine ⟨way ++ [v], hall, hdistinct, ?_, ?_⟩
      · rw [hdepth, List.length_append, List.length_singleton]
      · rw [List.append_assoc, List.singleton_append]
        exact isWalk_append_pair.mpr ⟨hwalk, hchild⟩
    · obtain ⟨way', hways', hnodup', hlength', hwalk'⟩ := h.met e (List.mem_cons_of_mem _ hold)
      exact ⟨way', fun u hu => List.mem_cons_of_mem _ (hways' u hu), hnodup', hlength', hwalk'⟩
  · intro u hu
    rcases List.mem_cons.mp hu with rfl | hold
    · refine ⟨way, hall, hdistinct, hwalk, hdepth, ?_⟩
      intro c hc
      right
      by_cases hseen : c ∈ u :: visited
      · exact .inl hseen
      · exact .inr (mem_pushAll.mpr (.inl ⟨hc, hseen, rfl⟩))
    · obtain ⟨way', hways', hnodup', hwalk', hlimit', hchildren'⟩ := h.expanded u hold
      refine ⟨way', fun w hw => List.mem_cons_of_mem _ (hways' w hw), hnodup', hwalk', hlimit', ?_⟩
      intro c hc
      rcases hchildren' c hc with hend | hseen | hmem
      · exact .inl hend
      · exact .inr (.inl (List.mem_cons_of_mem _ hseen))
      · rcases List.mem_cons.mp hmem with heq | hrest
        · exact .inr (.inl ((Prod.mk.inj heq).1 ▸ List.mem_cons_self))
        · exact .inr (.inr (mem_pushAll.mpr (.inr hrest)))

/-- Every node is expanded once, and what the expansions add up to. -/
theorem search_explores {w : α → ℕ} {total : σ → ℕ} (hexpand : ∀ s v, (expand s v).1 = children v)
    (htotal : ∀ s v, total (expand s v).2 = total s + w v)
    (h : Explores children limit start stack visited)
    (hsearch : search expand limit fuel stack visited s = some (visited', s')) :
    Explores children limit start [] visited' ∧
      total s' + (visited.map w).sum = total s + (visited'.map w).sum := by
  induction fuel generalizing stack visited s with
  | zero =>
      cases stack with
      | nil =>
          obtain ⟨rfl, rfl⟩ := Prod.mk.inj (Option.some.inj hsearch)
          exact ⟨h, rfl⟩
      | cons e stack => cases hsearch
  | succ fuel ih =>
      cases stack with
      | nil =>
          obtain ⟨rfl, rfl⟩ := Prod.mk.inj (Option.some.inj hsearch)
          exact ⟨h, rfl⟩
      | cons e stack =>
          obtain ⟨v, depth⟩ := e
          rw [search] at hsearch
          split_ifs at hsearch with hdeep hseen
          · exact ih (h.drop (.inl hdeep)) hsearch
          · exact ih (h.drop (.inr hseen)) hsearch
          · rw [hexpand] at hsearch
            obtain ⟨hexplores, hsum⟩ := ih (h.visit (Nat.not_lt.mp hdeep) hseen) hsearch
            refine ⟨hexplores, ?_⟩
            rw [htotal, List.map_cons, List.sum_cons] at hsum
            omega

/-- No walk of distinct nodes that ends at the limit leads on to a node that is found within it, and
is not on the walk. -/
def Unshadowed (children : α → List α) (limit : ℕ) (start : α) : Prop :=
  ∀ way v, (way ++ [v]).Nodup → IsWalk children start (way ++ [v]) → way.length = limit →
    ∀ c ∈ children v, c ∈ within children limit [start] → c ∈ way ++ [v]

omit [DecidableEq α] in
/-- The search visits what is within the limit. -/
theorem Explores.visits (h : Explores children limit start [] visited)
    (hclear : Unshadowed children limit start) :
    v ∈ visited ↔ v ∈ within children limit [start] := by
  constructor
  · intro hv
    obtain ⟨way, -, -, hwalk, hlimit, -⟩ := h.expanded v hv
    exact within_mono hlimit hwalk.mem_within
  · have hsteps : ∀ steps ≤ limit, ∀ v ∈ within children steps [start], v ∈ visited := by
      intro steps
      induction steps with
      | zero =>
          intro _ v hv
          rw [List.mem_singleton.mp hv]
          exact h.started.resolve_right List.not_mem_nil
      | succ steps ih =>
          intro hle v hv
          rcases mem_within_succ.mp hv with hearlier | ⟨u, hu, hchild⟩
          · exact ih (Nat.le_of_succ_le hle) v hearlier
          · obtain ⟨way, hways, hnodup, hwalk, -, hchildren⟩ :=
              h.expanded u (ih (Nat.le_of_succ_le hle) u hu)
            rcases hchildren v hchild with hend | hseen | hmem
            · exact hways v (hclear way u hnodup hwalk hend v hchild (within_mono hle hv))
            · exact hseen
            · cases hmem
    exact hsteps limit (Nat.le_refl limit) v

/-- What the nodes within the limit add up to, each taken once. -/
theorem search_total (w : α → ℕ) (total : σ → ℕ) (hexpand : ∀ s v, (expand s v).1 = children v)
    (htotal : ∀ s v, total (expand s v).2 = total s + w v)
    (hclear : Unshadowed children limit start)
    (hsearch : search expand limit fuel [(start, 0)] [] s = some (visited, s')) :
    total s' = total s + ((within children limit [start]).dedup.map w).sum := by
  obtain ⟨hexplores, hsum⟩ :=
    search_explores hexpand htotal (explores_start children limit start) hsearch
  have hperm : visited.Perm (within children limit [start]).dedup := by
    rw [List.perm_ext_iff_of_nodup hexplores.distinct (List.nodup_dedup _)]
    intro v
    rw [List.mem_dedup]
    exact hexplores.visits hclear
  rw [← (hperm.map w).sum_eq]
  exact hsum

end Visits

end DepthSearch
