import Mathlib.Tactic.Common

/-!
# Programs whose state survives an exception

`EStateM` is the monad of such programs: a step that raises leaves the state as it was
at that moment, and a handler goes on from there. `Leads R m s` says that the run of
`m` from `s` ends, normally or not, in a state related to `s`. For a reflexive and
transitive relation the rules follow the program text. `OnError R m s` says it of the runs
that raise. `Triple` has a postcondition for either end, for what holds between two statements only.
-/
universe u

namespace StateProgram
variable {ε σ α β : Type u}

/-- The state at the end of the run, however it ends. -/
def final (m : EStateM ε σ α) (s : σ) : σ :=
  match m s with
  | .ok _ s' => s'
  | .error _ s' => s'

def Leads (R : σ → σ → Prop) (m : EStateM ε σ α) (s : σ) : Prop := R s (final m s)

variable {R : σ → σ → Prop} {m : EStateM ε σ α} {f : α → EStateM ε σ β} {s s' : σ} {a : α} {e : ε}

theorem final_ok (h : m s = .ok a s') : final m s = s' := by rw [final, h]

theorem final_error (h : m s = .error e s') : final m s = s' := by rw [final, h]

theorem bind_ok (h : m s = .ok a s') : (m >>= f) s = f a s' := by
  show EStateM.bind m f s = f a s'
  rw [EStateM.bind, h]

theorem bind_error (h : m s = .error e s') : (m >>= f) s = .error e s' := by
  show EStateM.bind m f s = .error e s'
  rw [EStateM.bind, h]

theorem get_bind {f : σ → EStateM ε σ α} : (get >>= f) s = f s s := rfl

/-- What comes last and changes no state. -/
theorem final_bind_left (hf : ∀ a s, final (f a) s = s) : final (m >>= f) s = final m s := by
  cases hm : m s with
  | ok a s' =>
      rw [final, bind_ok hm, final_ok hm]
      exact hf a s'
  | error e s' => rw [final_error hm, final_error (bind_error hm)]

/-- A sequence ends normally when both parts do. -/
theorem bind_eq_ok {b : β} {s'' : σ} :
    (m >>= f) s = .ok b s'' ↔ ∃ a s', m s = .ok a s' ∧ f a s' = .ok b s'' := by
  constructor
  · intro h
    cases hm : m s with
    | ok a s' => exact ⟨a, s', rfl, (bind_ok hm).symm.trans h⟩
    | error e s' =>
        rw [bind_error hm] at h
        cases h
  · intro h
    obtain ⟨a, s', hm, hf⟩ := h
    rw [bind_ok hm, hf]

theorem tryCatch_ok {handler : ε → EStateM ε σ α} (h : m s = .ok a s') :
    tryCatch m handler s = .ok a s' := by
  show EStateM.tryCatch m handler s = .ok a s'
  rw [EStateM.tryCatch, h]

theorem tryCatch_error {handler : ε → EStateM ε σ α} (h : m s = .error e s') :
    tryCatch m handler s = handler e s' := by
  show EStateM.tryCatch m handler s = handler e s'
  rw [EStateM.tryCatch, h]
  rfl

/-- Sequencing: the rest of the program may use how the first part ended. -/
theorem leads_bind (htrans : ∀ a b c, R a b → R b c → R a c) (hm : Leads R m s)
    (hf : ∀ a s', m s = .ok a s' → Leads R (f a) s') : Leads R (m >>= f) s := by
  cases h : m s with
  | ok a s' =>
      have hfirst : R s s' := final_ok h ▸ hm
      have hrest : R s' (final (f a) s') := hf a s' h
      have hfinal : final (m >>= f) s = final (f a) s' := by
        rw [final, bind_ok h, final]
      rw [Leads, hfinal]
      exact htrans _ _ _ hfirst hrest
  | error e s' =>
      have hfirst : R s s' := final_error h ▸ hm
      rw [Leads, final_error (bind_error h)]
      exact hfirst

theorem leads_get {f : σ → EStateM ε σ α} (h : Leads R (f s) s) : Leads R (get >>= f) s := h

/-- A handler goes on from the state in which the exception was raised. -/
theorem leads_tryCatch (htrans : ∀ a b c, R a b → R b c → R a c) (hm : Leads R m s)
    {handler : ε → EStateM ε σ α} (hh : ∀ e s', m s = .error e s' → Leads R (handler e) s') :
    Leads R (tryCatch m handler) s := by
  cases h : m s with
  | ok a s' =>
      rw [Leads, final_ok (tryCatch_ok h), ← final_ok h]
      exact hm
  | error e s' =>
      have hfirst : R s s' := final_error h ▸ hm
      have hrest : R s' (final (handler e) s') := hh e s' h
      have hfinal : final (tryCatch m handler) s = final (handler e) s' := by
        rw [final, tryCatch_error h, final]
      rw [Leads, hfinal]
      exact htrans _ _ _ hfirst hrest

/-- If the run raises, then in a state related to the first. -/
def OnError (R : σ → σ → Prop) (m : EStateM ε σ α) (s : σ) : Prop := ∀ e s', m s = .error e s' → R s s'

theorem Leads.onError (h : Leads R m s) : OnError R m s := by
  intro e s' hm
  rw [Leads, final_error hm] at h
  exact h

theorem onError_get {f : σ → EStateM ε σ α} (h : OnError R (f s) s) : OnError R (get >>= f) s := h

/-- The first part is related at either end, the rest where it raises. -/
theorem onError_bind (htrans : ∀ a b c, R a b → R b c → R a c) (hm : Leads R m s)
    (hf : ∀ a s', m s = .ok a s' → OnError R (f a) s') : OnError R (m >>= f) s := by
  intro e s'' h
  cases hfirst : m s with
  | ok a s' =>
      rw [bind_ok hfirst] at h
      rw [Leads, final_ok hfirst] at hm
      exact htrans _ _ _ hm (hf a s' hfirst e s'' h)
  | error e' s' =>
      rw [bind_error hfirst] at h
      obtain ⟨rfl, rfl⟩ := EStateM.Result.error.inj h
      rw [Leads, final_error hfirst] at hm
      exact hm

/-- From every state in `P` the run ends normally in `Q` or with an exception in `E`. -/
def Triple (P : σ → Prop) (m : EStateM ε σ α) (Q : α → σ → Prop) (E : ε → σ → Prop) : Prop :=
  ∀ s, P s → match m s with
    | .ok a s' => Q a s'
    | .error e s' => E e s'

section Triples
variable {P P' : σ → Prop} {Q Q' : α → σ → Prop} {E E' : ε → σ → Prop}

theorem Triple.final {I : σ → Prop} (h : Triple P m (fun _ => I) fun _ => I) (hs : P s) :
    I (StateProgram.final m s) := by
  have hrun := h s hs
  cases hm : m s with
  | ok a s' =>
      rw [hm] at hrun
      rw [final_ok hm]
      exact hrun
  | error e s' =>
      rw [hm] at hrun
      rw [final_error hm]
      exact hrun

theorem Triple.pure (h : ∀ s, P s → Q a s) : Triple P (pure a : EStateM ε σ α) Q E := h

theorem Triple.throw (h : ∀ s, P s → E e s) : Triple P (throw e : EStateM ε σ α) Q E := h

theorem Triple.weaken (h : Triple P m Q E) (hP : ∀ s, P' s → P s) (hQ : ∀ a s, Q a s → Q' a s)
    (hE : ∀ e s, E e s → E' e s) : Triple P' m Q' E' := by
  intro s hs
  have hrun := h s (hP s hs)
  cases hm : m s with
  | ok a s' =>
      rw [hm] at hrun
      exact hQ a s' hrun
  | error e s' =>
      rw [hm] at hrun
      exact hE e s' hrun

theorem Triple.bind {R : β → σ → Prop} (hm : Triple P m Q E)
    (hf : ∀ a, Triple (Q a) (f a) R E) : Triple P (m >>= f) R E := by
  intro s hs
  have hfirst := hm s hs
  cases h : m s with
  | ok a s' =>
      rw [h] at hfirst
      rw [bind_ok h]
      exact hf a s' hfirst
  | error e s' =>
      rw [h] at hfirst
      rw [bind_error h]
      exact hfirst

theorem Triple.tryCatch {handler : ε → EStateM ε σ α} (hm : Triple P m Q E)
    (hh : ∀ e, Triple (E e) (handler e) Q E') : Triple P (tryCatch m handler) Q E' := by
  intro s hs
  have hfirst := hm s hs
  cases h : m s with
  | ok a s' =>
      rw [h] at hfirst
      rw [tryCatch_ok h]
      exact hfirst
  | error e s' =>
      rw [h] at hfirst
      rw [tryCatch_error h]
      exact hh e s' hfirst

/-- Branching on a condition the state does not decide. -/
theorem Triple.ite {c : Prop} [Decidable c] {m' : EStateM ε σ α} (h : c → Triple P m Q E)
    (h' : ¬ c → Triple P m' Q E) : Triple P (if c then m else m') Q E := by
  split_ifs with hc
  · exact h hc
  · exact h' hc

end Triples

end StateProgram
