import Mathlib.Data.Finset.Card
import SmartMedia.Library.PartialRun
import SmartMedia.Scrape.ProcessTask

/-!
# The counters of a scrape job

One job with everything that happens to it one after the other: starts, stops between any
two steps, and the steps of its tasks. A task counts from what it finds in the row, and
nothing sets the row's counters back: the counters are those of the task exactly if they
were zero when it began.
-/
namespace SmartMedia.Scrape
open Media (Path ScrapeJob ScrapeJobStatus)

/-- The job's row, its latest task, and every task that has ended with the row it left. -/
structure History where
  row : ScrapeJob := { status := .pending }
  task : Option Task := none
  ends : List (Task × ScrapeJob) := []
  deriving DecidableEq, Repr

inductive HistoryAction where
  | start
  | stop
  | run (event : Event)
  deriving DecidableEq, Repr

namespace History

/-- `start_job`: nothing happens while a task is unfinished. -/
def startJob (s : History) : History :=
  if s.task.any (!·.done) then s
  else { s with row := { s.row with status := .running }, task := some { jobId := 0 } }

/-- `stop_job`, up to its waiting for the task. -/
def stopJob (s : History) : History :=
  { s with
    row := { s.row with status := .cancelled }
    task := s.task.map fun t => if t.done then t else { t with cancelling := true } }

def step (s : History) : HistoryAction → Option History
  | .start => some s.startJob
  | .stop => some s.stopJob
  | .run event =>
      s.task.bind fun t => (t.step s.row event).map fun p =>
        { row := p.1
          task := some p.2
          ends := if p.2.done then s.ends ++ [(p.2, p.1)] else s.ends }

end History

/-- The files with an outcome, each once. -/
def Task.filesWith (t : Task) (success : Bool) : Finset Path :=
  ((t.outcomes.filter (·.2 = success)).map (·.1)).toFinset

/-- What the row should say when the task has ended. -/
structure Accounted (t : Task) (row : ScrapeJob) : Prop where
  processed : row.processedItems = row.successItems + row.failedItems
  bounded : row.processedItems ≤ row.totalItems
  success : row.successItems = (t.filesWith true).card
  failed : row.failedItems = (t.filesWith false).card
  status : row.status =
    if 0 < row.totalItems ∧ ∀ file ∈ t.files, file ∈ t.filesWith false then .failed else .completed

/-- The task found no counters of an earlier one. -/
def Task.Fresh (t : Task) : Prop :=
  t.before.processedItems = 0 ∧ t.before.successItems = 0 ∧ t.before.failedItems = 0

/-- The row's counters are those the task found and one for each item since. -/
structure Tallied (t : Task) (row : ScrapeJob) (remaining : List Path) : Prop where
  files : t.files = t.outcomes.map (·.1) ++ remaining
  once : t.files.Nodup
  total : row.totalItems = t.files.length
  processed : row.processedItems = t.before.processedItems + t.outcomes.length
  success : row.successItems = t.before.successItems + t.outcomes.countP (·.2 = true)
  failed : row.failedItems = t.before.failedItems + t.outcomes.countP (·.2 = false)

/-- The instance of the task is as the row, except for the status. -/
def SameCounters (a b : ScrapeJob) : Prop :=
  a.totalItems = b.totalItems ∧ a.processedItems = b.processedItems ∧
    a.successItems = b.successItems ∧ a.failedItems = b.failedItems

section Counting
variable {t : Task} {row row' : ScrapeJob} {rest : List Path} {file : Path}

/-- Neither the stage nor the statuses count. -/
theorem Tallied.transfer {t' : Task} (h : Tallied t row rest) (hbefore : t'.before = t.before)
    (hfiles : t'.files = t.files) (houtcomes : t'.outcomes = t.outcomes)
    (hrow : SameCounters row' row) : Tallied t' row' rest := by
  obtain ⟨htotal, hprocessed, hsuccess, hfailed⟩ := hrow
  refine ⟨?_, hfiles ▸ h.once, ?_, ?_, ?_, ?_⟩
  · rw [hfiles, houtcomes]
    exact h.files
  · rw [htotal, hfiles]
    exact h.total
  · rw [hprocessed, hbefore, houtcomes]
    exact h.processed
  · rw [hsuccess, hbefore, houtcomes]
    exact h.success
  · rw [hfailed, hbefore, houtcomes]
    exact h.failed

/-- An item adds one to two counters. -/
theorem Tallied.count {success : Bool} (h : Tallied t row (file :: rest))
    (hjob : SameCounters t.job row) :
    Tallied (Task.count row t file rest success).2 (Task.count row t file rest success).1 rest ∧
      SameCounters (Task.count row t file rest success).2.job
        (Task.count row t file rest success).1 := by
  obtain ⟨ht, hp, hs, hf⟩ := hjob
  have hfiles : t.files = (t.outcomes ++ [(file, success)]).map (·.1) ++ rest := by
    rw [h.files]
    simp
  cases success with
  | true =>
      refine ⟨⟨hfiles, h.once, h.total, ?_, ?_, ?_⟩, ⟨ht, rfl, rfl, hf⟩⟩
      · show t.job.processedItems + 1 = _ + (t.outcomes ++ _).length
        rw [hp, h.processed, List.length_append]
        rfl
      · show t.job.successItems + 1 = _ + (t.outcomes ++ _).countP _
        rw [hs, h.success, List.countP_append]
        rfl
      · show row.failedItems = _ + (t.outcomes ++ _).countP _
        rw [h.failed, List.countP_append]
        rfl
  | false =>
      refine ⟨⟨hfiles, h.once, h.total, ?_, ?_, ?_⟩, ⟨ht, rfl, hs, rfl⟩⟩
      · show t.job.processedItems + 1 = _ + (t.outcomes ++ _).length
        rw [hp, h.processed, List.length_append]
        rfl
      · show row.successItems = _ + (t.outcomes ++ _).countP _
        rw [h.success, List.countP_append]
        rfl
      · show t.job.failedItems + 1 = _ + (t.outcomes ++ _).countP _
        rw [hf, h.failed, List.countP_append]
        rfl

/-- Of files listed once, each outcome is counted once. -/
theorem Tallied.card_filesWith (h : Tallied t row rest) (success : Bool) :
    (t.filesWith success).card = t.outcomes.countP (·.2 = success) := by
  have honce : (t.outcomes.map (·.1)).Nodup := by
    have hall := h.once
    rw [h.files] at hall
    exact hall.of_append_left
  have hsome : ((t.outcomes.filter (·.2 = success)).map (·.1)).Nodup :=
    honce.sublist ((List.filter_sublist).map _)
  rw [Task.filesWith, List.toFinset_card_of_nodup hsome, List.length_map, List.countP_eq_length_filter]

theorem count_outcomes (outcomes : List (Path × Bool)) :
    outcomes.countP (·.2 = true) + outcomes.countP (·.2 = false) = outcomes.length := by
  induction outcomes with
  | nil => rfl
  | cons outcome rest ih =>
      rw [List.countP_cons, List.countP_cons, List.length_cons, ← ih]
      cases outcome.2 with
      | true => simp; omega
      | false => simp; omega

/-- All items failed exactly if the failures are as many as the files. -/
theorem Tallied.all_failed_iff (h : Tallied t row []) :
    (∀ file ∈ t.files, file ∈ t.filesWith false) ↔
      t.outcomes.countP (·.2 = false) = t.files.length := by
  have hfiles : t.files = t.outcomes.map (·.1) := by
    rw [h.files, List.append_nil]
  rw [← h.card_filesWith false]
  constructor
  · intro hall
    have hsub : t.files.toFinset ⊆ t.filesWith false := fun file hf =>
      hall file (List.mem_toFinset.mp hf)
    have hle := Finset.card_le_card hsub
    rw [List.toFinset_card_of_nodup h.once] at hle
    refine Nat.le_antisymm ?_ hle
    rw [h.card_filesWith false, hfiles, List.length_map]
    exact List.countP_le_length
  · intro hcard file hfile
    have hsub : t.filesWith false ⊆ t.files.toFinset := by
      intro file hf
      rw [Task.filesWith, List.mem_toFinset] at hf
      obtain ⟨outcome, hmem, rfl⟩ := List.mem_map.mp hf
      rw [List.mem_toFinset, hfiles]
      exact List.mem_map_of_mem (List.mem_filter.mp hmem).1
    have heq := Finset.eq_of_subset_of_card_le hsub
      (by rw [hcard, List.toFinset_card_of_nodup h.once])
    rw [heq, List.mem_toFinset]
    exact hfile

end Counting

/-- The status a task commits after its loop. -/
def verdict (row : ScrapeJob) : ScrapeJobStatus :=
  if row.failedItems < row.totalItems then .completed else .failed

/-- Not yet final, whether stopped or not. -/
def Open (status : ScrapeJobStatus) : Prop := status = .running ∨ status = .cancelled

/-- The counters of the task, its instance and the row while there are items left. -/
structure Counting (t : Task) (row : ScrapeJob) (remaining : List Path) : Prop where
  tallied : Tallied t row remaining
  same : SameCounters t.job row
  row : Open row.status
  job : Open t.job.status

/-- What holds of a task and the job's row between two steps. -/
def Phase (t : Task) (row : ScrapeJob) : Prop :=
  match t.stage with
  | .created | .notifying => t.outcomes = [] ∧ Open row.status
  | .looping rest => Counting t row rest
  | .processing file rest => Counting t row (file :: rest)
  | .closing false => Tallied t row [] ∧ (t.cancelling = false → row.status = verdict row)
  | _ => True

/-- What holds of a task that has ended and the row it left. -/
structure Concluded (t : Task) (row : ScrapeJob) : Prop where
  finished : t.stage = .ended .finished → Tallied t row [] ∧ row.status = verdict row
  escaped : t.stage = .ended .escaped → Open row.status

section Steps
variable {t t' : Task} {row row' : ScrapeJob} {rest : List Path} {file : Path} {e : Event}

theorem Counting.stop (h : Counting t row rest) :
    Counting { t with cancelling := true } { row with status := .cancelled } rest :=
  ⟨h.tallied.transfer rfl rfl rfl ⟨rfl, rfl, rfl, rfl⟩, h.same, .inr rfl, h.job⟩

theorem Phase.stop (h : Phase t row) :
    Phase { t with cancelling := true } { row with status := .cancelled } := by
  obtain ⟨jobId, stage, cancelling, job, before, files, outcomes⟩ := t
  cases stage with
  | created => exact ⟨h.1, .inr rfl⟩
  | notifying => exact ⟨h.1, .inr rfl⟩
  | looping rest => exact Counting.stop h
  | processing file rest => exact Counting.stop h
  | closing stopped =>
      cases stopped with
      | false => exact ⟨h.1.transfer rfl rfl rfl ⟨rfl, rfl, rfl, rfl⟩, fun hc => by cases hc⟩
      | true => trivial
  | failing => trivial
  | ended ending => trivial

/-- The loop is over: either the job was found cancelled or the verdict is written. -/
theorem Counting.finish (h : Counting t row []) :
    Phase (Task.finish row t).2 (Task.finish row t).1 := by
  obtain ⟨htotal, -, -, hfailed⟩ := h.same
  by_cases hc : t.job.status = .cancelled
  · rw [Task.finish, if_pos hc]
    trivial
  · have hrunning : t.job.status = .running := h.job.resolve_right hc
    have hverdict : (if t.job.failedItems < t.job.totalItems then ScrapeJobStatus.completed
        else .failed) = verdict row := by
      rw [verdict, htotal, hfailed]
    have hwritten : t.writeStatus row (verdict row) = { row with status := verdict row } := by
      rw [Task.writeStatus, if_neg]
      rw [hrunning, verdict]
      split_ifs <;> decide
    rw [Task.finish, if_neg hc, hverdict]
    dsimp only
    rw [hwritten]
    exact ⟨h.tallied.transfer rfl rfl rfl ⟨rfl, rfl, rfl, rfl⟩, fun _ => rfl⟩

theorem Counting.count {success : Bool} (h : Counting t row (file :: rest)) :
    Phase (Task.count row t file rest success).2 (Task.count row t file rest success).1 := by
  obtain ⟨htallied, hsame⟩ := @Tallied.count t row rest file success h.tallied h.same
  refine (⟨htallied, hsame, h.row, ?_⟩ : Counting _ _ rest)
  show Open (Task.count row t file rest success).2.job.status
  cases success <;> exact h.job

theorem finish_done (row : ScrapeJob) (t : Task) : (Task.finish row t).2.done = false := by
  rw [Task.finish]
  split_ifs <;> rfl

/-- The scan sets the number of items, and nothing else. -/
theorem counting_load {files : List Path} (houtcomes : t.outcomes = []) (honce : files.Nodup)
    (hopen : Open row.status) :
    Counting { t with
      job := { row with totalItems := files.length }, before := row, files
      stage := .looping files } { row with totalItems := files.length } files := by
  refine ⟨⟨?_, honce, rfl, ?_, ?_, ?_⟩, ⟨rfl, rfl, rfl, rfl⟩, hopen, hopen⟩
  · rw [houtcomes]
    rfl
  · rw [houtcomes]
    rfl
  · rw [houtcomes]
    rfl
  · rw [houtcomes]
    rfl

theorem Counting.reload (h : Counting t row (file :: rest)) :
    Counting { t with job := row, stage := .processing file rest } row (file :: rest) :=
  ⟨h.tallied.transfer rfl rfl rfl ⟨rfl, rfl, rfl, rfl⟩, ⟨rfl, rfl, rfl, rfl⟩, h.row, h.row⟩

/-- An ending without a verdict. -/
theorem concluded_of_ne {ending : Ending} (hstage : t.stage = .ended ending)
    (hf : ending ≠ .finished) (he : ending ≠ .escaped) : Concluded t row := by
  refine ⟨fun h => ?_, fun h => ?_⟩
  · rw [hstage] at h
    exact absurd (Stage.ended.inj h) hf
  · rw [hstage] at h
    exact absurd (Stage.ended.inj h) he

/-- Before its verdict a task leaves the row open. -/
theorem Phase.row_open (h : Phase t row)
    (hstage : Stage.inTry t.stage = true ∨ ∃ file rest, t.stage = .processing file rest) :
    Open row.status := by
  rw [Phase] at h
  rcases hstage with htry | ⟨file, rest, hprocessing⟩
  · cases hstage : t.stage with
    | notifying =>
        rw [hstage] at h
        exact h.2
    | looping rest =>
        rw [hstage] at h
        exact h.row
    | _ =>
        rw [hstage] at htry
        cases htry
  · rw [hprocessing] at h
    exact h.row

theorem Phase.step (h : Phase t row) (hstep : t.step row e = some (row', t')) :
    Phase t' row' ∧ (t'.done = true → Concluded t' row') := by
  cases Task.step_moves hstep with
  | begins hstage =>
      rw [Phase, hstage] at h
      exact ⟨h, fun hdone => (by cases hdone)⟩
  | loads files hstage honce =>
      rw [Phase, hstage] at h
      exact ⟨counting_load h.1 honce h.2, fun hdone => (by cases hdone)⟩
  | finishes hstage =>
      rw [Phase, hstage] at h
      refine ⟨Counting.finish h, fun hdone => ?_⟩
      rw [finish_done] at hdone
      cases hdone
  | stops file rest hstage => exact ⟨trivial, fun hdone => (by cases hdone)⟩
  | opens file rest hstage =>
      rw [Phase, hstage] at h
      exact ⟨Counting.reload h, fun hdone => (by cases hdone)⟩
  | counts file rest success hstage =>
      rw [Phase, hstage] at h
      exact ⟨Counting.count h, fun hdone => (by cases hdone)⟩
  | fails hstage => exact ⟨trivial, fun hdone => (by cases hdone)⟩
  | escapes hstage => exact ⟨trivial, fun _ => ⟨fun hf => (by cases hf), fun _ => h.row_open hstage⟩⟩
  | concludes hstage hcancelling =>
      rw [Phase, hstage] at h
      refine ⟨trivial, fun _ => ⟨fun _ => ⟨?_, h.2 hcancelling⟩, fun he => (by cases he)⟩⟩
      exact h.1.transfer rfl rfl rfl ⟨rfl, rfl, rfl, rfl⟩
  | ends ending row' hdone hending hrow =>
      exact ⟨trivial, fun _ => concluded_of_ne rfl hending.1 hending.2⟩

end Steps

/-- The latest task is in its phase, and those that have ended are concluded. -/
structure History.Sound (s : History) : Prop where
  task : ∀ t, s.task = some t → Phase t s.row
  ends : ∀ p ∈ s.ends, Concluded p.1 p.2

namespace History
variable {s s' : History} {a : HistoryAction}

theorem Sound.startJob (h : Sound s) : Sound s.startJob := by
  rw [History.startJob]
  split_ifs
  · exact h
  · exact ⟨fun t ht => (by cases ht; exact ⟨rfl, .inl rfl⟩), h.ends⟩

theorem Sound.stopJob (h : Sound s) : Sound s.stopJob := by
  refine ⟨fun t ht => ?_, h.ends⟩
  obtain ⟨u, hu, rfl⟩ := Option.map_eq_some_iff.mp ht
  have hphase := h.task u hu
  by_cases hdone : u.done = true
  · rw [if_pos hdone]
    obtain ⟨jobId, stage, cancelling, job, before, files, outcomes⟩ := u
    cases stage with
    | ended ending => trivial
    | _ => cases hdone
  · rw [if_neg hdone]
    exact hphase.stop

theorem Sound.step (h : Sound s) (hstep : s.step a = some s') : Sound s' := by
  cases a with
  | start =>
      cases hstep
      exact h.startJob
  | stop =>
      cases hstep
      exact h.stopJob
  | run event =>
      obtain ⟨t, ht, hrun⟩ := Option.bind_eq_some_iff.mp hstep
      obtain ⟨⟨row', t'⟩, hres, rfl⟩ := Option.map_eq_some_iff.mp hrun
      obtain ⟨hphase, hends⟩ := (h.task t ht).step hres
      refine ⟨fun u hu => (by cases hu; exact hphase), fun p hp => ?_⟩
      dsimp only at hp
      split_ifs at hp with hdone
      · rcases List.mem_append.mp hp with hp | hp
        · exact h.ends p hp
        · rw [List.mem_singleton.mp hp]
          exact hends hdone
      · exact h.ends p hp

end History

/-- The counts of a whole loop over files found by a fresh task, and only those. -/
theorem accounted_of_tallied {t : Task} {row : ScrapeJob} (h : Tallied t row [])
    (hstatus : row.status = verdict row) : Accounted t row ↔ t.Fresh ∧ t.files ≠ [] := by
  have hcount := count_outcomes t.outcomes
  have hlength : t.files.length = t.outcomes.length := by
    rw [h.files, List.append_nil, List.length_map]
  have htrue := h.card_filesWith true
  have hfalse := h.card_filesWith false
  obtain ⟨hprocessed, hsuccess, hfailed, htotal⟩ := And.intro h.processed
    (And.intro h.success (And.intro h.failed h.total))
  constructor
  · intro haccounted
    have hs := haccounted.success
    have hf := haccounted.failed
    have hp := haccounted.processed
    rw [htrue] at hs
    rw [hfalse] at hf
    have hfresh : t.Fresh := by
      refine ⟨?_, ?_, ?_⟩ <;> omega
    refine ⟨hfresh, fun hnone => ?_⟩
    -- nothing was found: the verdict is `failed`
    have hempty : t.files.length = 0 := by rw [hnone]; rfl
    have hverdict : row.status = .failed := by
      rw [hstatus, verdict, if_neg (by omega)]
    have hexpected := haccounted.status
    rw [if_neg (by omega), hverdict] at hexpected
    cases hexpected
  · intro ⟨⟨hp, hs, hf⟩, hsome⟩
    have hpositive : 0 < t.files.length := List.length_pos_iff.mpr hsome
    refine ⟨by omega, by omega, by omega, by omega, ?_⟩
    rw [hstatus, verdict]
    by_cases hall : ∀ file ∈ t.files, file ∈ t.filesWith false
    · have heq := h.all_failed_iff.mp hall
      rw [if_neg (by omega), if_pos ⟨by omega, hall⟩]
    · have hne : t.outcomes.countP (·.2 = false) ≠ t.files.length := fun he =>
        hall (h.all_failed_iff.mpr he)
      have hle : t.outcomes.countP (·.2 = false) ≤ t.outcomes.length := List.countP_le_length
      rw [if_pos (by omega), if_neg fun hc => hall hc.2]

/-- A row that says neither is not accounted for. -/
theorem not_accounted_of_open {t : Task} {row : ScrapeJob} (h : Open row.status) :
    ¬ Accounted t row := by
  intro haccounted
  have hstatus := haccounted.status
  rcases h with h | h
  · rw [h] at hstatus
    split_ifs at hstatus
  · rw [h] at hstatus
    split_ifs at hstatus

/-- After any starts, stops and outcomes: a task that ends without being cancelled and
without an exception outside its items leaves the row as it should be exactly if it found
the row's counters at zero and at least one file, and no commit of an item raised. -/
theorem accounted_iff {actions : List HistoryAction} {s : History}
    (h : PartialRun.exec History.step {} actions = some s) : ∀ p ∈ s.ends,
      p.1.stage = .ended .finished ∨ p.1.stage = .ended .escaped →
        (Accounted p.1 p.2 ↔ p.1.Fresh ∧ p.1.files ≠ [] ∧ p.1.stage ≠ .ended .escaped) := by
  have hsound : History.Sound s := PartialRun.invariant_of_step (fun _ _ _ hI hstep => hI.step hstep)
    ⟨fun t ht => (by cases ht), fun p hp => (by cases hp)⟩ h
  intro p hp hstage
  have hconcluded := hsound.ends p hp
  rcases hstage with hfinished | hescaped
  · obtain ⟨htallied, hstatus⟩ := hconcluded.finished hfinished
    rw [accounted_of_tallied htallied hstatus]
    have hne : p.1.stage ≠ .ended .escaped := by
      rw [hfinished]
      decide
    exact ⟨fun h => ⟨h.1, h.2, hne⟩, fun h => ⟨h.1, h.2.1⟩⟩
  · exact ⟨fun ha => absurd ha (not_accounted_of_open (hconcluded.escaped hescaped)),
      fun hc => absurd hescaped hc.2.2⟩

/-- One task that finds these files, all of which end well. -/
def wholeRun (files : List Path) : List HistoryAction :=
  [.start, .run .begin, .run (.load files)] ++
    files.flatMap (fun _ => [.run .next, .run (.settle .success)]) ++ [.run .next, .run .close]

theorem two_films_accounted :
    ∃ s, PartialRun.exec History.step {} (wholeRun ["a".toList, "b".toList]) = some s ∧
      s.ends.length = 1 ∧ ∀ p ∈ s.ends, Accounted p.1 p.2 := by
  have hrun : (PartialRun.exec History.step {} (wholeRun ["a".toList, "b".toList])).map
      (fun s => s.ends.map fun p => (p.1.stage, p.1.before, p.1.files)) =
        some [(.ended .finished, { status := .running }, ["a".toList, "b".toList])] := by
    decide +kernel
  obtain ⟨s, hexec, hends⟩ := Option.map_eq_some_iff.mp hrun
  refine ⟨s, hexec, ?_, fun p hp => ?_⟩
  · have hlength := congrArg List.length hends
    rwa [List.length_map] at hlength
  · have hmem := List.mem_map_of_mem (f := fun p => (p.1.stage, p.1.before, p.1.files)) hp
    rw [hends, List.mem_singleton, Prod.mk.injEq, Prod.mk.injEq] at hmem
    obtain ⟨hstage, hbefore, hfiles⟩ := hmem
    refine (accounted_iff hexec p hp (.inl hstage)).mpr ⟨?_, ?_, ?_⟩
    · rw [Task.Fresh, hbefore]
      exact ⟨rfl, rfl, rfl⟩
    · rw [hfiles]
      decide
    · rw [hstage]
      decide

/-- Stopped after its first item, started again: three items of two are processed. And a
job without files fails. -/
theorem items_counted_twice :
    ((PartialRun.exec History.step {} ([.start, .run .begin,
        .run (.load ["a".toList, "b".toList]), .run .next, .run (.settle .success), .stop,
        .run .next, .run .close] ++ wholeRun ["a".toList, "b".toList])).map fun s => s.row) =
      some ⟨.completed, 2, 3, 3, 0⟩ ∧
    ((PartialRun.exec History.step {} (wholeRun [])).map fun s => s.row) =
      some ⟨.failed, 0, 0, 0, 0⟩ ∧
    ¬ ∀ actions s, PartialRun.exec History.step {} actions = some s → ∀ p ∈ s.ends,
      p.1.stage = .ended .finished → Accounted p.1 p.2 := by
  refine ⟨by decide +kernel, by decide +kernel, fun hall => ?_⟩
  have hrun : (PartialRun.exec History.step {} (wholeRun [])).map
      (fun s => s.ends.map fun p => (p.1.stage, p.2)) =
        some [(.ended .finished, ⟨.failed, 0, 0, 0, 0⟩)] := by
    decide +kernel
  obtain ⟨s, hexec, hends⟩ := Option.map_eq_some_iff.mp hrun
  obtain ⟨p, hp, hpair⟩ : ∃ p ∈ s.ends, (p.1.stage, p.2) =
      (.ended .finished, (⟨.failed, 0, 0, 0, 0⟩ : ScrapeJob)) := by
    refine List.mem_map.mp ?_
    rw [hends]
    exact List.mem_singleton_self _
  rw [Prod.mk.injEq] at hpair
  have hstatus := (hall _ s hexec p hp hpair.1).status
  rw [hpair.2] at hstatus
  cases hstatus

end SmartMedia.Scrape
