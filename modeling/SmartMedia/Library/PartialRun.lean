import Mathlib.Data.List.Infix
import Mathlib.Tactic.Common

/-!
# Runs of a partial labelled step function

A system is given by a partial step `step : σ → α → Option σ`: `none` means that
the action is not enabled. A run is the iteration of the step along a list of
actions. Properties are stated at two granularities: `Along` speaks of every
state and action a run passes, `Throughout` of every state it visits. The rules
below turn a one-step fact into a fact about whole runs.
-/
namespace PartialRun

variable {σ α : Type*}

/-- The state after the actions, or `none` when one of them is not enabled. -/
def exec (step : σ → α → Option σ) : σ → List α → Option σ
  | s, [] => some s
  | s, a :: as => (step s a).bind fun s' => exec step s' as

/-- `P` holds at every state the run leaves, with the action it leaves by. -/
def Along (step : σ → α → Option σ) (P : σ → α → Prop) : σ → List α → Prop
  | _, [] => True
  | s, a :: as => P s a ∧ ∀ s', step s a = some s' → Along step P s' as

/-- `I` holds in every state visited, the first and the last included. -/
def Throughout (step : σ → α → Option σ) (I : σ → Prop) (s : σ) (as : List α) : Prop :=
  ∀ pre, pre <+: as → ∀ s', exec step s pre = some s' → I s'

variable {step : σ → α → Option σ} {P Q : σ → α → Prop} {I : σ → Prop}

@[simp] theorem exec_nil (s : σ) : exec step s [] = some s := rfl

@[simp] theorem exec_cons (s : σ) (a : α) (as : List α) :
    exec step s (a :: as) = (step s a).bind fun s' => exec step s' as := rfl

theorem exec_cons_eq_some {s t : σ} {a : α} {as : List α} :
    exec step s (a :: as) = some t ↔ ∃ u, step s a = some u ∧ exec step u as = some t := by
  simp [Option.bind_eq_some_iff]

theorem exec_append (s : σ) (as bs : List α) :
    exec step s (as ++ bs) = (exec step s as).bind fun u => exec step u bs := by
  induction as generalizing s with
  | nil => rfl
  | cons a as ih =>
      simp only [List.cons_append, exec_cons, Option.bind_assoc]
      exact congrArg _ (funext fun u => ih u)

theorem exec_append_eq_some {s t : σ} {as bs : List α} :
    exec step s (as ++ bs) = some t ↔
      ∃ u, exec step s as = some u ∧ exec step u bs = some t := by
  simp [exec_append, Option.bind_eq_some_iff]

@[simp] theorem along_nil (s : σ) : Along step P s [] := trivial

theorem along_cons {s : σ} {a : α} {as : List α} :
    Along step P s (a :: as) ↔ P s a ∧ ∀ s', step s a = some s' → Along step P s' as := Iff.rfl

/-- Conditions on the steps of a given run can be evaluated. -/
instance Along.decidable [∀ s a, Decidable (P s a)] : ∀ s as, Decidable (Along step P s as)
  | _, [] => .isTrue trivial
  | s, a :: as =>
      match h : step s a with
      | none => decidable_of_iff (P s a)
          ⟨fun hp => ⟨hp, fun _ hs => absurd (h.symm.trans hs) nofun⟩, fun hp => hp.1⟩
      | some s' =>
          have : Decidable (Along step P s' as) := Along.decidable s' as
          decidable_of_iff (P s a ∧ Along step P s' as)
            ⟨fun hp => ⟨hp.1, fun _ hs => Option.some.inj (h.symm.trans hs) ▸ hp.2⟩,
              fun hp => ⟨hp.1, hp.2 s' h⟩⟩

theorem along_append {s : σ} {as bs : List α} :
    Along step P s (as ++ bs) ↔
      Along step P s as ∧ ∀ u, exec step s as = some u → Along step P u bs := by
  induction as generalizing s with
  | nil => simp
  | cons a as ih =>
      simp only [List.cons_append, along_cons, ih, exec_cons_eq_some]
      constructor
      · rintro ⟨h, hs⟩
        exact ⟨⟨h, fun u hu => (hs u hu).1⟩, fun v ⟨u, hu, hv⟩ => (hs u hu).2 v hv⟩
      · rintro ⟨⟨h, hs⟩, ht⟩
        exact ⟨h, fun u hu => ⟨hs u hu, fun v hv => ht v ⟨u, hu, hv⟩⟩⟩

theorem Along.mono {s : σ} {as : List α} (h : Along step P s as)
    (hPQ : ∀ s a, P s a → Q s a) : Along step Q s as := by
  induction as generalizing s with
  | nil => trivial
  | cons a as ih => exact ⟨hPQ s a h.1, fun u hu => ih (h.2 u hu)⟩

/-- `Along` in terms of the splits of the action list. -/
theorem along_iff_split {s : σ} {as : List α} :
    Along step P s as ↔
      ∀ pre a post, as = pre ++ a :: post → ∀ u, exec step s pre = some u → P u a := by
  constructor
  · rintro h pre a post rfl u hu
    exact ((along_append.mp h).2 u hu).1
  · induction as generalizing s with
    | nil => intro; trivial
    | cons a as ih =>
        intro h
        refine ⟨h [] a as rfl s rfl, fun u hu => ih fun pre b post he v hv => ?_⟩
        exact h (a :: pre) b post (by rw [he]; rfl) v (exec_cons_eq_some.mpr ⟨u, hu, hv⟩)

/-- The steps of a run that goes through are enabled. -/
theorem along_enabled {s t : σ} {as : List α} (hrun : exec step s as = some t) :
    Along step (fun s a => ∃ u, step s a = some u) s as := by
  apply along_iff_split.mpr
  rintro pre a post rfl u hu
  obtain ⟨v, hv, hrest⟩ := exec_append_eq_some.mp hrun
  obtain rfl := Option.some.inj (hu.symm.trans hv)
  obtain ⟨w, hw, -⟩ := exec_cons_eq_some.mp hrest
  exact ⟨w, hw⟩

/-- The rule for runs: what every step along the run preserves holds at its end. -/
theorem invariant_of_along (hstep : ∀ s a s', I s → P s a → step s a = some s' → I s')
    {s t : σ} {as : List α} (hs : I s) (hP : Along step P s as)
    (hrun : exec step s as = some t) : I t := by
  induction as generalizing s with
  | nil => exact Option.some.inj hrun ▸ hs
  | cons a as ih =>
      obtain ⟨u, hu, ht⟩ := exec_cons_eq_some.mp hrun
      exact ih (hstep s a u hs hP.1 hu) (hP.2 u hu) ht

/-- What every step preserves holds at the end of every run. -/
theorem invariant_of_step (hstep : ∀ s a s', I s → step s a = some s' → I s')
    {s t : σ} {as : List α} (hs : I s) (hrun : exec step s as = some t) : I t := by
  refine invariant_of_along (P := fun _ _ => True) (fun s a s' h _ => hstep s a s' h) hs ?_ hrun
  exact along_iff_split.mpr fun _ _ _ _ _ _ => trivial

/-- What an invariant and the conditions give at each step holds along the run. -/
theorem along_of_along (hstep : ∀ s a s', I s → P s a → step s a = some s' → I s')
    (hQ : ∀ s a, I s → P s a → Q s a) {s : σ} {as : List α} (hs : I s)
    (hP : Along step P s as) : Along step Q s as := by
  induction as generalizing s with
  | nil => trivial
  | cons a as ih =>
      exact ⟨hQ s a hs hP.1, fun u hu => ih (hstep s a u hs hP.1 hu) (hP.2 u hu)⟩

theorem throughout_cons {s : σ} {a : α} {as : List α} :
    Throughout step I s (a :: as) ↔
      I s ∧ ∀ u, step s a = some u → Throughout step I u as := by
  constructor
  · intro h
    refine ⟨h [] (List.nil_prefix) s rfl, fun u hu pre hpre v hv => ?_⟩
    exact h (a :: pre) (List.cons_prefix_cons.mpr ⟨rfl, hpre⟩) v
      (exec_cons_eq_some.mpr ⟨u, hu, hv⟩)
  · rintro ⟨hs, h⟩ pre hpre v hv
    cases pre with
    | nil => exact Option.some.inj hv ▸ hs
    | cons b pre =>
        obtain ⟨rfl, htail⟩ := List.cons_prefix_cons.mp hpre
        obtain ⟨u, hu, hv⟩ := exec_cons_eq_some.mp hv
        exact h u hu pre htail v hv

/-- What the steps meeting `P` preserve holds throughout a run that meets `P`. -/
theorem throughout_of_along (hstep : ∀ s a s', I s → P s a → step s a = some s' → I s')
    {s : σ} {as : List α} (hs : I s) (hP : Along step P s as) : Throughout step I s as := by
  rintro pre ⟨post, rfl⟩ u hu
  exact invariant_of_along hstep hs (along_append.mp hP).1 hu

/-- Exact conditions for runs: when a step out of an `I` state lands in `I`
exactly if it meets `P`, a run stays in `I` exactly if all its steps meet `P`. -/
theorem throughout_iff_along
    (hstep : ∀ s a s', I s → step s a = some s' → (I s' ↔ P s a))
    {s t : σ} {as : List α} (hs : I s) (hrun : exec step s as = some t) :
    Throughout step I s as ↔ Along step P s as := by
  induction as generalizing s with
  | nil =>
      refine ⟨fun _ => trivial, fun _ pre hpre u hu => ?_⟩
      rw [List.prefix_nil.mp hpre] at hu
      exact Option.some.inj hu ▸ hs
  | cons a as ih =>
      obtain ⟨u, hu, ht⟩ := exec_cons_eq_some.mp hrun
      rw [throughout_cons, along_cons]
      constructor
      · intro h
        have hIu : I u := h.2 u hu [] List.nil_prefix u rfl
        refine ⟨(hstep s a u hs hu).mp hIu, fun v hv => ?_⟩
        obtain rfl : u = v := Option.some.inj (hu.symm.trans hv)
        exact (ih hIu ht).mp (h.2 u hu)
      · intro h
        have hIu : I u := (hstep s a u hs hu).mpr h.1
        refine ⟨hs, fun v hv => ?_⟩
        obtain rfl : u = v := Option.some.inj (hu.symm.trans hv)
        exact (ih hIu ht).mpr (h.2 u hu)

/-- The rule for runs with a history: `I` speaks of the actions so far, too. -/
theorem invariant_of_history {I : List α → σ → Prop} {P : List α → σ → α → Prop}
    (hstep : ∀ pre s a s', I pre s → P pre s a → step s a = some s' → I (pre ++ [a]) s')
    {s t : σ} {as : List α} (hs : I [] s)
    (hP : ∀ pre a post, as = pre ++ a :: post → ∀ u, exec step s pre = some u → P pre u a)
    (hrun : exec step s as = some t) : I as t := by
  induction as using List.reverseRecOn generalizing t with
  | nil => exact Option.some.inj hrun ▸ hs
  | append_singleton as a ih =>
      obtain ⟨u, hu, hlast⟩ := exec_append_eq_some.mp hrun
      obtain ⟨v, hv, hend⟩ := exec_cons_eq_some.mp hlast
      obtain rfl : v = t := Option.some.inj hend
      refine hstep as u a v (ih (fun pre b post has w hw => ?_) hu) (hP as a [] rfl u hu) hv
      exact hP pre b (post ++ [a]) (by rw [has, List.append_assoc, List.cons_append]) w hw

/-- Two step properties hold along a run together exactly if each does. -/
theorem along_and {s : σ} {as : List α} :
    Along step (fun s a => P s a ∧ Q s a) s as ↔ Along step P s as ∧ Along step Q s as := by
  constructor
  · intro h
    exact ⟨h.mono fun _ _ h => h.1, h.mono fun _ _ h => h.2⟩
  · intro h
    rw [along_iff_split] at h ⊢
    intro pre a post he u hu
    exact ⟨h.1 pre a post he u hu, along_iff_split.mp h.2 pre a post he u hu⟩

/-- Exact conditions for absorbing losses: as long as the steps meet `P` a run stays
in `I`, the first step that does not leads to `J`, and `J` is never left. -/
theorem along_or_lost {J : σ → Prop} (hkeep : ∀ s a s', I s → P s a → step s a = some s' → I s')
    (hlose : ∀ s a s', I s → ¬ P s a → step s a = some s' → J s')
    (hlost : ∀ s a s', J s → step s a = some s' → J s')
    {s t : σ} {as : List α} (hs : I s) (hrun : exec step s as = some t) :
    Along step P s as ∧ I t ∨ ¬ Along step P s as ∧ J t := by
  induction as generalizing s with
  | nil => exact .inl ⟨trivial, Option.some.inj hrun ▸ hs⟩
  | cons a as ih =>
      obtain ⟨u, hu, ht⟩ := exec_cons_eq_some.mp hrun
      by_cases hP : P s a
      · have hrest : Along step P s (a :: as) ↔ Along step P u as := by
          rw [along_cons]
          exact ⟨fun h => h.2 u hu, fun h => ⟨hP, fun v hv => Option.some.inj (hu.symm.trans hv) ▸ h⟩⟩
        rw [hrest]
        exact ih (hkeep s a u hs hP hu) ht
      · have hJ : J t := invariant_of_step hlost (hlose s a u hs hP hu) ht
        exact .inr ⟨fun h => hP h.1, hJ⟩

end PartialRun
