import SmartMedia.Media.ScrapeJob

/-!
# Stored statuses of scrape items

A commit writes an allowed change of the current item's status, and the exception handler
of an item forces a status it may not have. A session whose commit has raised has to be
rolled back before it is used again, and no handler rolls it back: what is forced after a
commit has raised is therefore never stored, and before other calls the item has a
status for which the handler's choice is allowed.
-/
namespace SmartMedia.Media
open StateProgram

/-- A change of a stored status; a job that does not rename leaves `scraped` alone. -/
def Change (options : ScrapeOptions) (a b : ScrapeStatus) : Prop :=
  b ∈ allowedScrapeTransitions a ∧ (a = .scraped → options.shouldRename = true)

instance (options : ScrapeOptions) : DecidableRel (Change options) := fun _ _ =>
  inferInstanceAs (Decidable (_ ∧ _))

namespace ScrapeRun
section Flush
variable {s : ScrapeRun} {i j : ℕ} {status : ScrapeStatus}

theorem change_of_length_le (h : s.items.length ≤ i) : s.change i = none := by
  rw [change, statusAt, List.getElem?_eq_none h]
  rfl

/-- What a flush adds to the history of each item. -/
theorem history_flush (s : ScrapeRun) (j : ℕ) :
    s.flush.history j = s.history j ++ (s.change j).toList := by
  have hwritten : ∀ n, (((List.range n).filterMap fun i => (s.change i).map (Prod.mk i)).filter
      (·.1 = j)).map (·.2) = if j < n then (s.change j).toList else [] := by
    intro n
    induction n with
    | zero => simp
    | succ n ih =>
        rw [List.range_succ, List.filterMap_append, List.filter_append, List.map_append, ih]
        rcases Nat.lt_trichotomy j n with h | h | h
        · rw [if_pos h, if_pos (by omega)]
          cases hc : s.change n with
          | none => simp [hc]
          | some status => simp [hc, Nat.ne_of_gt h]
        · subst h
          rw [if_neg (by omega), if_pos (by omega)]
          cases hc : s.change j with
          | none => simp [hc]
          | some status => simp [hc]
        · rw [if_neg (by omega), if_neg (by omega)]
          cases hc : s.change n with
          | none => simp [hc]
          | some status => simp [hc, Nat.ne_of_lt h]
  rw [history, flush, List.filter_append, List.map_append, hwritten, ← history]
  split_ifs with h
  · rfl
  · rw [change_of_length_le (by omega)]
    rfl

/-- A flush writes a status exactly if it is not the stored one. -/
theorem change_eq_none (h : s.statusAt i = some status) :
    s.change i = none ↔ (s.history i).getLast? = some status := by
  rw [change, h, Option.filter_eq_none_iff]
  simp

theorem statusAt_setStatus (s : ScrapeRun) (i j : ℕ) (b : ScrapeStatus) :
    (s.setStatus i b).statusAt j = if j = i then (s.statusAt i).map fun _ => b
      else s.statusAt j := by
  split_ifs with hj
  · rw [hj, statusAt, statusAt, setStatus, List.getElem?_modify_eq, Option.map_map]
    cases s.items[i]? <;> rfl
  · rw [statusAt, statusAt, setStatus, List.getElem?_modify_ne _ _ (Ne.symm hj)]

end Flush

/-- Every stored change is allowed, and an item not yet added has none. -/
structure Sound (options : ScrapeOptions) (s : ScrapeRun) : Prop where
  chain : ∀ i, (s.history i).IsChain (Change options)
  unborn : ∀ i, s.items.length ≤ i → s.history i = []

/-- A commit would write allowed changes. -/
structure Ready (options : ScrapeOptions) (s : ScrapeRun) : Prop extends Sound options s where
  allowed : ∀ i b, s.change i = some b → ∀ a ∈ (s.history i).getLast?, Change options a b
  usable : s.broken = false

/-- A commit would write nothing. -/
structure Settled (options : ScrapeOptions) (s : ScrapeRun) : Prop extends Sound options s where
  unchanged : ∀ i, s.change i = none
  usable : s.broken = false

/-- The session is settled and item `i` has a status. -/
structure At (options : ScrapeOptions) (i : ℕ) (a : ScrapeStatus) (s : ScrapeRun) : Prop
    extends Settled options s where
  status : s.statusAt i = some a

/-- A commit has raised, and the session can do nothing any more. -/
structure Stuck (options : ScrapeOptions) (s : ScrapeRun) : Prop extends Sound options s where
  broken : s.broken = true

/-- How an exception leaves the session in the job's handler. -/
def Safe (options : ScrapeOptions) (s : ScrapeRun) : Prop := Settled options s ∨ Stuck options s

/-- How an exception leaves it in the handler of item `i`. -/
def Failing (options : ScrapeOptions) (i : ℕ) (s : ScrapeRun) : Prop :=
  Stuck options s ∨ At options i .scraping s ∨ At options i .renaming s

section States
variable {options : ScrapeOptions} {s s' : ScrapeRun} {i : ℕ} {a b : ScrapeStatus}

theorem Settled.ready (h : Settled options s) : Ready options s :=
  ⟨h.toSound, fun i b hb => (by rw [h.unchanged i] at hb; cases hb), h.usable⟩

theorem Safe.sound (h : Safe options s) : Sound options s := by
  rcases h with h | h
  · exact h.toSound
  · exact h.toSound

theorem Failing.safe (h : Failing options i s) : Safe options s := by
  rcases h with h | h | h
  · exact .inr h
  · exact .inl h.toSettled
  · exact .inl h.toSettled

/-- The calls made and the job's row play no role. -/
theorem Settled.of_same (h : Settled options s) (hi : s'.items = s.items)
    (hs : s'.stored = s.stored) (hb : s'.broken = s.broken) : Settled options s' := by
  have hhistory : ∀ i, s'.history i = s.history i := fun i => by rw [history, hs, history]
  refine ⟨⟨fun i => ?_, fun i hle => ?_⟩, fun i => ?_, hb.trans h.usable⟩
  · rw [hhistory]
    exact h.chain i
  · rw [hhistory]
    exact h.unborn i (hi ▸ hle)
  · rw [change, statusAt, hi, hhistory, ← statusAt, ← change]
    exact h.unchanged i

theorem Sound.of_same (h : Sound options s) (hi : s'.items.length = s.items.length)
    (hs : s'.stored = s.stored) : Sound options s' := by
  have hhistory : ∀ i, s'.history i = s.history i := fun i => by rw [history, hs, history]
  refine ⟨fun i => ?_, fun i hle => ?_⟩
  · rw [hhistory]
    exact h.chain i
  · rw [hhistory]
    exact h.unborn i (hi ▸ hle)

theorem Ready.of_same (h : Ready options s) (hi : s'.items = s.items)
    (hs : s'.stored = s.stored) (hb : s'.broken = s.broken) : Ready options s' := by
  have hhistory : ∀ i, s'.history i = s.history i := fun i => by rw [history, hs, history]
  refine ⟨h.toSound.of_same (by rw [hi]) hs, fun i b hc a ha => ?_, hb.trans h.usable⟩
  rw [change, statusAt, hi, hhistory, ← statusAt, ← change] at hc
  rw [hhistory] at ha
  exact h.allowed i b hc a ha

/-- A flush of allowed changes settles the session. -/
theorem Ready.flush (h : Ready options s) : Settled options s.flush := by
  refine ⟨⟨fun i => ?_, fun i hi => ?_⟩, fun i => ?_, h.usable⟩
  · rw [history_flush]
    cases hc : s.change i with
    | none =>
        rw [Option.toList_none, List.append_nil]
        exact h.chain i
    | some b =>
        rw [Option.toList_some, List.isChain_append]
        refine ⟨h.chain i, .singleton b, fun x hx y hy => ?_⟩
        obtain rfl : b = y := by simpa using hy
        exact h.allowed i b hc x hx
  · have hlength : s.items.length ≤ i := hi
    rw [history_flush, h.unborn i hlength, change_of_length_le hlength]
    rfl
  · cases hstatus : s.statusAt i with
    | none =>
        have hnone : s.flush.statusAt i = none := hstatus
        rw [change, hnone]
        rfl
    | some status =>
        refine (change_eq_none (s := s.flush) hstatus).mpr ?_
        rw [history_flush]
        cases hc : s.change i with
        | none =>
            rw [Option.toList_none, List.append_nil]
            exact (change_eq_none hstatus).mp hc
        | some b =>
            have hb := (Option.filter_eq_some_iff.mp hc).1
            rw [Option.toList_some, List.getLast?_concat, ← hb, hstatus]

theorem At.last (h : At options i a s) : (s.history i).getLast? = some a :=
  (change_eq_none h.status).mp (h.unchanged i)

/-- Only the item that gets a status has one to be written. -/
theorem Settled.setStatus (h : Settled options s)
    (hallowed : ∀ a ∈ (s.history i).getLast?, a = b ∨ Change options a b) :
    Ready options (s.setStatus i b) := by
  refine ⟨h.toSound.of_same (by simp [ScrapeRun.setStatus]) rfl, fun j c hc a ha => ?_, h.usable⟩
  have hhistory : (s.setStatus i b).history j = s.history j := rfl
  rw [hhistory] at ha
  obtain ⟨hstatus, hne⟩ := Option.filter_eq_some_iff.mp hc
  rw [statusAt_setStatus] at hstatus
  split_ifs at hstatus with hj
  · subst hj
    obtain ⟨-, -, rfl⟩ := Option.map_eq_some_iff.mp hstatus
    rcases hallowed a ha with rfl | hab
    · exact absurd ha (of_decide_eq_true hne)
    · exact hab
  · have hsame : (s.setStatus i b).change j = s.change j := by
      rw [change, change, statusAt_setStatus, if_neg hj, hhistory]
    rw [hsame, h.unchanged j] at hc
    cases hc

theorem setStatus_status (h : s.statusAt i = some a) : (s.setStatus i b).statusAt i = some b := by
  rw [statusAt_setStatus, if_pos rfl, h]
  rfl

end States
end ScrapeRun

open ScrapeRun

theorem Change.of_allowed {options : ScrapeOptions} {a b : ScrapeStatus}
    (h : b ∈ allowedScrapeTransitions a) (ha : a ≠ .scraped) : Change options a b :=
  ⟨h, fun he => absurd he ha⟩

namespace ScrapeService
section Programs
variable {env : ScrapeEnv} {options : ScrapeOptions} {s : ScrapeRun} {i : ℕ} {a b : ScrapeStatus}

/-- A commit settles the session and keeps its instances, or leaves it stuck. -/
theorem commit_triple (hneeds : ∀ n, env.usable n = false) (R : List ScrapeItem → Prop) :
    Triple (fun s => Ready options s ∧ R s.items) (commit env)
      (fun _ s => Settled options s ∧ R s.items) (fun _ => Stuck options) := by
  intro s hs
  obtain ⟨hready, hR⟩ := hs
  have hbroken : ¬ s.broken = true := by simp [hready.usable]
  cases hraised : env.raised s.calls with
  | none =>
      have hrun : commit env s = .ok () { s.flush with calls := s.calls + 1 } := by
        rw [commit, if_neg hbroken, hraised]
      rw [hrun]
      exact ⟨hready.flush.of_same rfl rfl rfl, hR⟩
  | some e =>
      have hrun : commit env s =
          .error e { s with calls := s.calls + 1, broken := !env.usable s.calls } := by
        rw [commit, if_neg hbroken, hraised]
      rw [hrun]
      exact ⟨hready.toSound.of_same rfl rfl, by simp [hneeds]⟩

theorem commit_stuck : Triple (Stuck options) (commit env) (fun _ _ => False)
    (fun _ => Stuck options) := by
  intro s hs
  have hrun : commit env s = .error (.exception env.needsRollback) s := by
    rw [commit, if_pos hs.broken]
  rw [hrun]
  exact hs

theorem call_triple {P : ScrapeRun → Prop}
    (hP : ∀ s n, P s → P { s with calls := n }) :
    Triple P (call env) (fun _ => P) (fun _ => P) := by
  intro s hs
  rw [call]
  cases env.raised s.calls with
  | none => exact hP s _ hs
  | some e => exact hP s _ hs

theorem settled_calls (s : ScrapeRun) (n : ℕ) (h : Settled options s) :
    Settled options { s with calls := n } := h.of_same rfl rfl rfl

theorem at_calls (s : ScrapeRun) (n : ℕ) (h : At options i a s) :
    At options i a { s with calls := n } := ⟨settled_calls s n h.toSettled, h.status⟩

theorem answer_triple : Triple (At options i a) (answer env) (fun _ => At options i a)
    (fun _ => At options i a) := by
  refine .bind (Q := fun _ => At options i a) (fun s hs => hs) fun s => ?_
  exact .bind (call_triple at_calls) fun _ => .pure fun _ hs => hs

/-- A query of a settled session keeps it; a stuck one only raises. -/
theorem query_triple (R : List ScrapeItem → Prop) :
    Triple (fun s => Settled options s ∧ R s.items) (query env)
      (fun _ s => Settled options s ∧ R s.items) (fun _ => Safe options) := by
  intro s hs
  have hrun : query env s = call env s := by
    rw [query]
    show (if s.broken then throw (.exception env.needsRollback) else call env : ScrapeM Unit) s = _
    rw [if_neg (by simp [hs.1.usable])]
  rw [hrun]
  have hcall : Triple (fun s => Settled options s ∧ R s.items) (call env)
      (fun _ s => Settled options s ∧ R s.items) (fun _ s => Settled options s ∧ R s.items) :=
    call_triple fun s n h => ⟨settled_calls s n h.1, h.2⟩
  exact (hcall.weaken (fun _ h => h) (fun _ _ h => h) fun _ _ h => .inl h.1) s hs

theorem query_safe : Triple (Safe options) (query env) (fun _ => Settled options)
    (fun _ => Safe options) := by
  intro s hs
  rcases hs with hs | hs
  · exact ((query_triple fun _ => True).weaken (fun _ h => ⟨h, trivial⟩) (fun _ _ h => h.1)
      fun _ _ h => h) s hs
  · have hrun : query env s = .error (.exception env.needsRollback) s := by
      rw [query]
      show (if s.broken then throw (.exception env.needsRollback) else call env :
        ScrapeM Unit) s = _
      rw [if_pos hs.broken]
      rfl
    rw [hrun]
    exact .inr hs

theorem modifyJob_triple {P : ScrapeRun → Prop} {E : Raised → ScrapeRun → Prop}
    {f : ScrapeJob → ScrapeJob} (hP : ∀ s job, P s → P { s with job }) :
    Triple P (modifyJob f) (fun _ => P) E := fun s hs => hP s _ hs

theorem settled_job (s : ScrapeRun) (job : ScrapeJob) (h : Settled options s) :
    Settled options { s with job } := h.of_same rfl rfl rfl

theorem ready_job (s : ScrapeRun) (job : ScrapeJob)
    (h : Ready options s ∧ s.statusAt i = some a) :
    Ready options { s with job } ∧ ScrapeRun.statusAt { s with job } i = some a :=
  ⟨h.1.of_same rfl rfl rfl, h.2⟩

/-- The checked assignment, where the table allows it, does not raise. -/
theorem transition_triple {E : Raised → ScrapeRun → Prop} (hab : Change options a b) :
    Triple (At options i a) (transitionItemStatus i b)
      (fun _ s => Ready options s ∧ s.statusAt i = some b) E := by
  intro s hs
  have hcheck : ∃ result, stateMachine.assertTransition a b = .ok result := by
    rw [ScrapeStateMachine.assertTransition]
    split_ifs with hsame hin
    · exact ⟨_, rfl⟩
    · exact ⟨_, rfl⟩
    · exact absurd hab.1 hin
  obtain ⟨result, hcheck⟩ := hcheck
  have hrun : transitionItemStatus i b s = .ok () (s.setStatus i b) := by
    have hread : (get : ScrapeM ScrapeRun) s = .ok s s := rfl
    rw [transitionItemStatus, StateProgram.bind_ok hread]
    simp only [hs.status, Option.getD_some, hcheck]
    rfl
  rw [hrun]
  refine ⟨hs.toSettled.setStatus fun x hx => ?_, setStatus_status hs.status⟩
  obtain rfl : a = x := Option.some.inj (hs.last.symm.trans hx)
  exact .inr hab

/-- A checked assignment, whatever else is done in memory, and a commit. -/
theorem ready_commit (hneeds : ∀ n, env.usable n = false) :
    Triple (fun s => Ready options s ∧ s.statusAt i = some b) (commit env)
      (fun _ => At options i b) (fun _ => Failing options i) :=
  (commit_triple hneeds fun items => items[i]?.map (·.status) = some b).weaken
    (fun _ h => h) (fun _ _ h => ⟨h.1, h.2⟩) fun _ _ h => .inl h

/-- A checked assignment, a commit and what follows. -/
theorem advance_triple {γ : Type} {rest : ScrapeM γ} {Q : γ → ScrapeRun → Prop}
    (hneeds : ∀ n, env.usable n = false) (hab : Change options a b)
    (hrest : Triple (At options i b) rest Q (fun _ => Failing options i)) :
    Triple (At options i a) (do
      transitionItemStatus i b
      commit env
      rest) Q (fun _ => Failing options i) :=
  .bind (transition_triple hab) fun _ => .bind (ready_commit hneeds) fun _ => hrest

theorem scrapeItem_triple (hneeds : ∀ n, env.usable n = false) :
    Triple (At options i .pending) (scrapeItem env options i)
      (fun scraped => At options i (if scraped then .scraped else .scrapeFailed))
      (fun _ => Failing options i) := by
  have hscraping : ∀ {γ : Type} {m : ScrapeM γ}, Triple (At options i .scraping) m
      (fun _ => At options i .scraping) (fun _ => At options i .scraping) →
      Triple (At options i .scraping) m (fun _ => At options i .scraping)
        (fun _ => Failing options i) := fun h =>
    h.weaken (fun _ hs => hs) (fun _ _ hs => hs) fun _ _ hs => .inr (.inl hs)
  have hdone : Triple (At options i .scraping) (do
        transitionItemStatus i .scraped
        commit env
        pure true)
      (fun scraped => At options i (if scraped then .scraped else .scrapeFailed))
      (fun _ => Failing options i) :=
    advance_triple hneeds (.of_allowed (by decide) (by decide)) (.pure fun _ h => h)
  refine advance_triple hneeds (.of_allowed (by decide) (by decide)) ?_
  refine advance_triple hneeds (.of_allowed (by decide) (by decide)) ?_
  refine .ite (fun _ => ?_) fun _ => ?_
  · refine .bind (hscraping answer_triple) fun success => ?_
    refine .ite (fun _ => hdone) fun _ => ?_
    refine .bind (transition_triple (.of_allowed (by decide) (by decide))) fun _ => ?_
    refine .bind (modifyJob_triple ready_job) fun _ => .bind (modifyJob_triple ready_job) fun _ => ?_
    exact .bind (ready_commit hneeds) fun _ => .pure fun _ h => h
  · exact .bind (hscraping (call_triple at_calls)) fun _ => hdone

theorem organizeItem_triple (hneeds : ∀ n, env.usable n = false) :
    Triple (At options i .scraped) (organizeItem env options i) (fun _ => Settled options)
      (fun _ => Failing options i) := by
  have hcommit : ∀ {b : ScrapeStatus}, Triple (fun s => Ready options s ∧ s.statusAt i = some b)
      (do countProcessed; commit env) (fun _ => Settled options) (fun _ => Failing options i) :=
    .bind (modifyJob_triple ready_job) fun _ =>
      (ready_commit hneeds).weaken (fun _ h => h) (fun _ _ h => h.toSettled) fun _ _ h => h
  have hready : ∀ s, At options i .scraped s → Ready options s ∧ s.statusAt i = some .scraped :=
    fun s h => ⟨h.toSettled.ready, h.status⟩
  rw [organizeItem]
  cases hrename : options.shouldRename with
  | false =>
      refine .bind ((modifyJob_triple ready_job).weaken hready (fun _ _ h => h) fun _ _ h => h)
        fun _ => hcommit
  | true =>
      have hrenaming : Change options .scraped .renaming := ⟨by decide, fun _ => hrename⟩
      refine advance_triple hneeds hrenaming ?_
      refine .bind (answer_triple.weaken (fun _ h => h) (fun _ _ h => h)
        fun _ _ h => .inr (.inr h)) fun renamed => ?_
      refine .ite (fun _ => ?_) fun _ => ?_
      · refine .bind (transition_triple (.of_allowed (by decide) (by decide))) fun _ => ?_
        exact .bind (modifyJob_triple ready_job) fun _ => hcommit
      · refine .bind (transition_triple (.of_allowed (by decide) (by decide))) fun _ => ?_
        exact .bind (modifyJob_triple ready_job) fun _ => hcommit

/-- What the handler does in memory after a commit has raised does not matter. -/
theorem stuck_setStatus (h : Stuck options s) : Stuck options (s.setStatus i b) :=
  ⟨h.toSound.of_same (by simp [ScrapeRun.setStatus]) rfl, h.broken⟩

theorem transition_stuck : Triple (Stuck options) (transitionItemStatus i b)
    (fun _ => Stuck options) (fun _ => Stuck options) := by
  intro s hs
  have hread : (get : ScrapeM ScrapeRun) s = .ok s s := rfl
  rw [transitionItemStatus, StateProgram.bind_ok hread]
  cases stateMachine.assertTransition ((s.statusAt i).getD .pending) b with
  | error e => exact hs
  | ok result => exact stuck_setStatus hs

theorem assignFallback_stuck : Triple (Stuck options) (assignFallback i b)
    (fun _ => Stuck options) (fun _ => Stuck options) := by
  refine .tryCatch transition_stuck fun e => ?_
  cases e with
  | cancelled => exact .throw fun s hs => hs
  | exception text => exact fun s hs => stuck_setStatus hs

theorem assignFallback_triple {E : Raised → ScrapeRun → Prop} (hab : Change options a b) :
    Triple (At options i a) (assignFallback i b)
      (fun _ s => Ready options s ∧ s.statusAt i = some b) E :=
  .tryCatch (transition_triple (E := fun _ _ => False) hab) fun _ _ hs => hs.elim

/-- The handler stores an allowed status, or nothing. -/
theorem recover_triple (hneeds : ∀ n, env.usable n = false) (e : Raised) :
    Triple (Failing options i) (recover env i e) (fun _ => Settled options)
      (fun _ => Safe options) := by
  cases e with
  | cancelled => exact .throw fun s hs => hs.safe
  | exception text =>
      have hstuck : ∀ {b : ScrapeStatus}, Triple (Stuck options) (do
          assignFallback i b
          countFailed
          countProcessed
          commit env) (fun _ => Settled options) (fun _ => Safe options) := by
        intro b
        have hjob : ∀ (s : ScrapeRun) (job : ScrapeJob), Stuck options s →
            Stuck options { s with job } := fun s job h => ⟨h.toSound.of_same rfl rfl, h.broken⟩
        refine .bind (assignFallback_stuck.weaken (fun _ h => h) (fun _ _ h => h)
          fun _ _ h => .inr h) fun _ => ?_
        refine .bind (modifyJob_triple hjob) fun _ => .bind (modifyJob_triple hjob) fun _ => ?_
        exact commit_stuck.weaken (fun _ h => h) (fun _ _ h => h.elim) fun _ _ h => .inr h
      have hallowed : ∀ {a b : ScrapeStatus}, b ∈ allowedScrapeTransitions a → a ≠ .scraped →
          Triple (At options i a) (do
            assignFallback i b
            countFailed
            countProcessed
            commit env) (fun _ => Settled options) (fun _ => Safe options) := by
        intro a b hb ha
        refine .bind (assignFallback_triple (.of_allowed hb ha)) fun _ => ?_
        refine .bind (modifyJob_triple ready_job) fun _ => .bind (modifyJob_triple ready_job) ?_
        exact fun _ => (ready_commit hneeds).weaken (fun _ h => h) (fun _ _ h => h.toSettled)
          fun _ _ h => h.safe
      -- the fallback depends on the status at which the exception was raised
      intro s hs
      have hrun : recover env i (.exception text) s = (do
          assignFallback i (if (s.statusAt i).getD .pending ∈
            [ScrapeStatus.renaming, .renameFailed] then .renameFailed else .scrapeFailed)
          countFailed
          countProcessed
          commit env : ScrapeM Unit) s := rfl
      rw [hrun]
      rcases hs with hs | hs | hs
      · exact hstuck s hs
      · rw [hs.status]
        exact hallowed (by decide) (by decide) s hs
      · rw [hs.status]
        exact hallowed (by decide) (by decide) s hs

theorem commit_settled (hneeds : ∀ n, env.usable n = false) :
    Triple (Settled options) (commit env) (fun _ => Settled options) (fun _ => Safe options) :=
  (commit_triple hneeds fun _ => True).weaken (fun _ h => ⟨h.ready, trivial⟩) (fun _ _ h => h.1)
    fun _ _ h => .inr h

theorem query_settled :
    Triple (Settled options) (query env) (fun _ => Settled options) (fun _ => Safe options) :=
  query_safe.weaken (fun _ h => .inl h) (fun _ _ h => h) fun _ _ h => h

theorem call_settled :
    Triple (Settled options) (call env) (fun _ => Settled options) (fun _ => Safe options) :=
  (call_triple settled_calls).weaken (fun _ h => h) (fun _ _ h => h) fun _ _ h => .inl h

/-- A new item has no stored status. -/
theorem addItem_ready {file : Path} (h : Settled options s) :
    Ready options { s with items := s.items ++ [{ filePath := file }] } ∧
      ScrapeRun.statusAt { s with items := s.items ++ [{ filePath := file }] } s.items.length =
        some .pending := by
  have hstatus : ∀ j, j ≠ s.items.length →
      ScrapeRun.statusAt { s with items := s.items ++ [{ filePath := file }] } j =
        s.statusAt j := by
    intro j hj
    rw [statusAt, statusAt]
    rcases Nat.lt_or_gt_of_ne hj with hlt | hgt
    · rw [List.getElem?_append_left hlt]
    · rw [List.getElem?_eq_none (by simp; omega), List.getElem?_eq_none (by omega)]
  refine ⟨⟨⟨h.chain, fun j hj => h.unborn j ?_⟩, fun j b hb a ha => ?_, h.usable⟩, ?_⟩
  · rw [List.length_append] at hj
    omega
  · by_cases hj : j = s.items.length
    · have hnone : s.history j = [] := h.unborn j (by omega)
      have ha' : a ∈ (s.history j).getLast? := ha
      rw [hnone] at ha'
      cases ha'
    · rw [change, hstatus j hj] at hb
      have hsame : s.change j = some b := hb
      rw [h.unchanged j] at hsame
      cases hsame
  · rw [statusAt, List.getElem?_append_right le_rfl, Nat.sub_self]
    rfl

theorem addItem_triple {file : Path} {E : Raised → ScrapeRun → Prop} :
    Triple (Settled options) (addItem file)
      (fun i s => Ready options s ∧ s.statusAt i = some .pending) E := fun _ hs => addItem_ready hs

theorem processFiles_triple (hneeds : ∀ n, env.usable n = false) (files : List Path) :
    Triple (Settled options) (processFiles env options files) (fun _ => Settled options)
      (fun _ => Safe options) := by
  induction files with
  | nil => exact .pure fun _ h => h
  | cons file files ih =>
      have hquery : ∀ i, Triple (At options i .pending) (query env)
          (fun _ => At options i .pending) (fun _ => Safe options) := fun i =>
        (query_triple fun items => items[i]?.map (·.status) = some .pending).weaken
          (fun _ h => ⟨h.toSettled, h.status⟩) (fun _ _ h => ⟨h.1, h.2⟩) fun _ _ h => h
      have hcommit : ∀ i, Triple (fun s => Ready options s ∧ s.statusAt i = some .pending)
          (commit env) (fun _ => At options i .pending) (fun _ => Safe options) := fun i =>
        (ready_commit hneeds).weaken (fun _ h => h) (fun _ _ h => h) fun _ _ h => h.safe
      refine .bind (Q := fun _ => Settled options) (fun s hs => hs) fun before => ?_
      refine .bind query_settled fun _ => .ite (fun _ => modifyJob_triple settled_job) fun _ => ?_
      refine .bind addItem_triple fun i => .bind (hcommit i) fun _ => .bind (hquery i) fun _ => ?_
      refine .bind ((hcommit i).weaken (fun _ h => ⟨h.toSettled.ready, h.status⟩)
        (fun _ _ h => h) fun _ _ h => h) fun _ => .bind (hquery i) fun _ => ?_
      refine .bind (.tryCatch ?_ (recover_triple hneeds)) fun _ => ih
      refine .bind (scrapeItem_triple hneeds) fun scraped => ?_
      cases scraped with
      | true => exact organizeItem_triple hneeds
      | false => exact .pure fun _ h => h.toSettled

theorem logged_triple : Triple (Settled options) (logged env) (fun _ => Settled options)
    (fun _ => Safe options) := by
  refine .tryCatch (call_triple settled_calls) fun e => ?_
  cases e with
  | cancelled => exact .throw fun _ h => .inl h
  | exception text => exact .pure fun _ h => h

theorem notifyEnd_triple : Triple (Settled options) (notifyEnd env) (fun _ => Settled options)
    (fun _ => Safe options) := by
  refine .bind (Q := fun _ => Settled options) (fun s hs => hs) fun s => ?_
  exact .ite (fun _ => logged_triple) fun _ => .pure fun _ h => h

theorem finish_triple (hneeds : ∀ n, env.usable n = false) :
    Triple (Settled options) (finish env options) (fun _ => Settled options)
      (fun _ => Safe options) := by
  refine .bind (modifyJob_triple settled_job) fun _ => .bind call_settled fun _ => ?_
  refine .bind (commit_settled hneeds) fun _ => .bind notifyEnd_triple fun _ => ?_
  exact .ite (fun _ => logged_triple) fun _ => .pure fun _ h => h

theorem closeJob_triple (hneeds : ∀ n, env.usable n = false) (status : ScrapeJobStatus) :
    Triple (Safe options) (closeJob env status) (fun _ => Settled options)
      (fun _ => Safe options) := by
  refine .bind query_safe fun _ => .ite (fun _ => ?_) fun _ => .pure fun _ h => h
  exact .bind (modifyJob_triple settled_job) fun _ => commit_settled hneeds

theorem abort_triple (hneeds : ∀ n, env.usable n = false) (e : Raised) :
    Triple (Safe options) (abort env e) (fun _ => Safe options) (fun _ => Safe options) := by
  cases e with
  | cancelled =>
      exact .bind (closeJob_triple hneeds .cancelled) fun _ => .throw fun _ h => .inl h
  | exception text =>
      refine .bind (closeJob_triple hneeds .failed) fun _ => ?_
      exact logged_triple.weaken (fun _ h => h) (fun _ _ h => .inl h) fun _ _ h => h

/-- However a run ends, every status it stored was allowed. -/
theorem processJob_triple (hneeds : ∀ n, env.usable n = false) (files : List Path) :
    Triple (Settled options) (processJob env options files) (fun _ => Safe options)
      (fun _ => Safe options) := by
  refine .bind logged_triple fun _ => .tryCatch ?_ (abort_triple hneeds)
  have hjob : Triple (Settled options) (if env.jobFound then do
      call env
      modifyJob fun job => { job with totalItems := files.length }
      commit env
      processFiles env options files
      finish env options
    else pure ()) (fun _ => Settled options) (fun _ => Safe options) := by
    refine .ite (fun _ => ?_) fun _ => .pure fun _ h => h
    refine .bind call_settled fun _ => .bind (modifyJob_triple settled_job) fun _ => ?_
    refine .bind (commit_settled hneeds) fun _ => ?_
    exact .bind (processFiles_triple hneeds files) fun _ => finish_triple hneeds
  exact (Triple.bind query_settled fun _ => hjob).weaken (fun _ h => h) (fun _ _ h => .inl h)
    fun _ _ h => h

theorem processJob_sound (hneeds : ∀ n, env.usable n = false) (files : List Path) :
    Sound options (final (processJob env options files) {}) := by
  have hstart : Settled options {} :=
    ⟨⟨fun _ => .nil, fun _ _ => rfl⟩, fun _ => rfl, rfl⟩
  exact ((processJob_triple hneeds files).final hstart).sound

end Programs
end ScrapeService

/-- A start of a job: what its run of `_process_job` is given. -/
structure ScrapeStart where
  env : ScrapeEnv
  options : ScrapeOptions
  files : List Path

def ScrapeStart.run (start : ScrapeStart) : ScrapeRun :=
  final (ScrapeService.processJob start.env start.options start.files) {}

/-- Statuses stored by the runs of any number of starts, by run and item. Of each run
they are a beginning of what it stores; runs may take turns in any way. -/
def StoredBy (starts : ℕ → ScrapeStart) (log : List (ℕ × ℕ × ScrapeStatus)) : Prop :=
  ∀ r, (log.filter (·.1 = r)).map (·.2) <+: (starts r).run.stored

/-- What is stored for an item of a run, one status after the other. -/
def itemHistory (log : List (ℕ × ℕ × ScrapeStatus)) (r i : ℕ) : List ScrapeStatus :=
  (((log.filter (·.1 = r)).map (·.2)).filter (·.1 = i)).map (·.2)

/-- The item is renamed, or scraped in a job that does not rename. -/
def TerminalSuccess (options : ScrapeOptions) (a : ScrapeStatus) : Prop :=
  a = .renamed ∨ a = .scraped ∧ options.shouldRename = false

theorem Change.not_terminal {options : ScrapeOptions} {a b : ScrapeStatus}
    (h : Change options a b) : ¬ TerminalSuccess options a := by
  intro ht
  rcases ht with rfl | ⟨rfl, hrename⟩
  · cases h.1
  · rw [h.2 rfl] at hrename
    cases hrename

theorem isChain_terminal {options : ScrapeOptions} {before after : List ScrapeStatus}
    {a : ScrapeStatus} (h : (before ++ a :: after).IsChain (Change options))
    (ha : TerminalSuccess options a) : after = [] := by
  cases after with
  | nil => rfl
  | cons b after =>
      have hnext := (List.isChain_append_cons_cons.mp h).2.1
      exact absurd ha hnext.not_terminal

/-- For any number of starts of jobs, with any exceptions, cancellations and answers at
every call and any interleaving of the runs: each stored status of an item and the next
one are an allowed transition, and a terminal success is the last. A session whose
commit has raised cannot be used again without a rollback. -/
theorem stored_transitions_allowed (starts : ℕ → ScrapeStart)
    (hneeds : ∀ r n, (starts r).env.usable n = false) {log : List (ℕ × ℕ × ScrapeStatus)}
    (hlog : StoredBy starts log) (r i : ℕ) :
    (itemHistory log r i).IsChain (fun a b => b ∈ allowedScrapeTransitions a) ∧
      ∀ before a after, itemHistory log r i = before ++ a :: after →
        TerminalSuccess (starts r).options a → after = [] := by
  have hsound : Sound (starts r).options (starts r).run :=
    ScrapeService.processJob_sound (hneeds r) (starts r).files
  have hpart : itemHistory log r i <+: (starts r).run.history i := ((hlog r).filter _).map _
  have hchain : (itemHistory log r i).IsChain (Change (starts r).options) := by
    obtain ⟨rest, hrest⟩ := hpart
    have hall := hsound.chain i
    rw [← hrest] at hall
    exact hall.left_of_append
  refine ⟨hchain.imp fun _ _ h => h.1, fun before a after he ha => ?_⟩
  rw [he] at hchain
  exact isChain_terminal hchain ha

/-- The last commit of an item that is only scraped raises, and the session `usable` or
not is used on. -/
def lastCommitRaises (usable : Bool) : ScrapeStart where
  env := {
    raised := fun n => if n = 13 then some (.exception "database is locked") else none
    succeeds := fun _ => true
    cancelled := fun _ => false
    usable := fun _ => usable
    jobFound := true
    needsRollback := "transaction has been rolled back" }
  options := { scrapeMode := .onlyScrape }
  files := ["/m/a.mkv".toList]

def scrapedLog : List (ℕ × ℕ × ScrapeStatus) :=
  [(0, 0, .pending), (0, 0, .scanned), (0, 0, .scraping), (0, 0, .scraped)]

theorem scraped_stays : StoredBy (fun _ => lastCommitRaises false) scrapedLog ∧
    itemHistory scrapedLog 0 0 = [.pending, .scanned, .scraping, .scraped] ∧
    (itemHistory scrapedLog 0 0).IsChain (fun a b => b ∈ allowedScrapeTransitions a) := by
  have hstored : (lastCommitRaises false).run.stored =
      [(0, .pending), (0, .scanned), (0, .scraping), (0, .scraped)] := by decide +kernel
  have hlog : StoredBy (fun _ => lastCommitRaises false) scrapedLog := by
    intro r
    rw [hstored]
    by_cases hr : 0 = r
    · subst hr
      decide
    · simp [scrapedLog, hr]
  exact ⟨hlog, rfl, (stored_transitions_allowed _ (fun _ _ => rfl) hlog 0 0).1⟩

/-- In a session that could be used on, the handler's commit would store the forced
status: the rule for sessions whose commit has raised cannot be dropped. -/
theorem forced_status_stored : (lastCommitRaises true).run.history 0 =
      [.pending, .scanned, .scraping, .scraped, .scrapeFailed] ∧
    ScrapeStatus.scrapeFailed ∉ allowedScrapeTransitions .scraped := by
  decide +kernel

end SmartMedia.Media
