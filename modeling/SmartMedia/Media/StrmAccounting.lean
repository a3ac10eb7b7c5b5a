import SmartMedia.Media.Organize

/-!
# What an STRM task reports

The counters of a run are folded over its files, whatever is answered for each. A failing message after a
file was counted counts it again, and files that are matched to one name take each other's place.
-/
namespace SmartMedia.Media.Organize

/-- What becomes of one file. -/
inductive Verdict where
  | failed
  | skipped
  | opened (opening : Opening)

section Turns
variable (task : StrmTask)

/-- What becomes of one file, from what is answered. -/
def verdict (turn : ScannedFile × Answers) : Verdict :=
  match turn.2.announced, turn.2.matched with
  | none, .ok (matchInfo, confidence) =>
      match matchInfo.filter fun _ => confidenceThreshold ≤ confidence with
      | none => .skipped
      | some info =>
          match generateNewName info (splitext turn.1.fileName).2, turn.2.write with
          | some names, .written => .opened ⟨task.location names, turn.1, true⟩
          | some names, .broken _ => .opened ⟨task.location names, turn.1, false⟩
          | _, _ => .failed
  | _, _ => .failed

def Verdict.opening? : Verdict → Option Opening
  | .opened opening => some opening
  | _ => none

def Verdict.isGenerated : Verdict → Bool
  | .opened opening => opening.complete
  | _ => false

def Verdict.isSkipped : Verdict → Bool
  | .skipped => true
  | _ => false

/-- An exception is counted for the file. -/
def isError (turn : ScannedFile × Answers) : Bool :=
  let verdict := verdict task turn
  !(verdict.isGenerated || verdict.isSkipped) || turn.2.reported.isSome

/-- The content that an opening leaves. -/
def left (turn : ScannedFile × Answers) : Path :=
  match turn.2.write with
  | .broken count => (task.buildWebdavUrl turn.1.fullPath).take count
  | _ => task.buildWebdavUrl turn.1.fullPath

/-- The progress after one file. -/
def after (s : Progress) (turn : ScannedFile × Answers) : Progress :=
  let verdict := verdict task turn
  { processed := s.processed + 1
    generated := s.generated + if verdict.isGenerated then 1 else 0
    skipped := s.skipped + if verdict.isSkipped then 1 else 0
    errors := s.errors + if isError task turn then 1 else 0
    files := match verdict.opening? with
      | some opening => s.files.insert opening.location (left task turn)
      | none => s.files
    opened := s.opened ++ verdict.opening?.toList }

/-- The progress when a file was opened. -/
def openedAt (s : Progress) (opening : Opening) (content : Path) : Progress :=
  { s with
    generated := s.generated + if opening.complete then 1 else 0
    files := s.files.insert opening.location content
    opened := s.opened ++ [opening] }

/-- What follows the naming of a file. -/
def afterNaming (file : ScannedFile) (write : WriteAnswer) (reported : Option Signal) :
    Option (Path × Path) → OrganizeM Unit
  | none => throw .exception
  | some names => do
      writeStrm file (task.location names) (task.buildWebdavUrl file.fullPath) write
      modify fun s => { s with generated := s.generated + 1 }
      updateProgress reported

/-- What follows the search for a file. -/
def afterMatch (file : ScannedFile) (write : WriteAnswer) (reported : Option Signal) :
    Option MatchInfo → OrganizeM Unit
  | none => do
      modify fun s => { s with skipped := s.skipped + 1 }
      updateProgress reported
  | some info =>
      afterNaming task file write reported (generateNewName info (splitext file.fileName).2)

theorem generate_matched (file : ScannedFile) (matchInfo : Option MatchInfo) (confidence : ℚ)
    (write : WriteAnswer) (reported : Option Signal) (s : Progress) :
    task.generate file ⟨none, .ok (matchInfo, confidence), write, reported⟩ s =
      afterMatch task file write reported
        (matchInfo.filter fun _ => confidenceThreshold ≤ confidence) s := by
  have hannounced : updateProgress none s = .ok () s := rfl
  have hmatched : StrmTask.generate.liftExcept (.ok (matchInfo, confidence)) s =
      .ok (matchInfo, confidence) s := rfl
  rw [StrmTask.generate, StateProgram.bind_ok hannounced, StateProgram.bind_ok hmatched]
  dsimp only
  generalize matchInfo.filter (fun _ => confidenceThreshold ≤ confidence) = found
  cases found with
  | none => rfl
  | some info =>
      rw [afterMatch]
      dsimp only
      generalize generateNewName info (splitext file.fileName).2 = names
      cases names with
      | none => rfl
      | some names => rfl

/-- How the `try` block ends. -/
theorem generate_cases (file : ScannedFile) (answers : Answers) (s : Progress) :
    (∃ signal, verdict task (file, answers) = .failed ∧
      task.generate file answers s = .error signal s) ∨
    (verdict task (file, answers) = .skipped ∧ task.generate file answers s =
      updateProgress answers.reported { s with skipped := s.skipped + 1 }) ∨
    (∃ opening, verdict task (file, answers) = .opened opening ∧ opening.complete = true ∧
      task.generate file answers s =
        updateProgress answers.reported (openedAt s opening (left task (file, answers)))) ∨
    (∃ opening, verdict task (file, answers) = .opened opening ∧ opening.complete = false ∧
      task.generate file answers s =
        .error .exception (openedAt s opening (left task (file, answers)))) := by
  obtain ⟨announced, matched, write, reported⟩ := answers
  cases announced with
  | some signal => exact .inl ⟨signal, rfl, rfl⟩
  | none =>
      cases matched with
      | error signal => exact .inl ⟨signal, rfl, rfl⟩
      | ok answer =>
          obtain ⟨matchInfo, confidence⟩ := answer
          rw [generate_matched]
          cases hmatch : matchInfo.filter fun _ => confidenceThreshold ≤ confidence with
          | none => exact .inr (.inl ⟨by simp only [verdict, hmatch], rfl⟩)
          | some info =>
              rw [afterMatch]
              cases hnames : generateNewName info (splitext file.fileName).2 with
              | none => exact .inl ⟨.exception, by simp only [verdict, hmatch, hnames], rfl⟩
              | some names =>
                  cases write with
                  | refused => exact .inl ⟨.exception, by simp only [verdict, hmatch, hnames], rfl⟩
                  | written =>
                      refine .inr (.inr (.inl ⟨⟨task.location names, file, true⟩, ?_, rfl, rfl⟩))
                      simp only [verdict, hmatch, hnames]
                  | broken count =>
                      refine .inr (.inr (.inr ⟨⟨task.location names, file, false⟩, ?_, rfl, rfl⟩))
                      simp only [verdict, hmatch, hnames]

variable {task} {s s' : Progress} {file : ScannedFile} {answers : Answers}

/-- How the body of the loop goes on. -/
theorem processFile_eq (file : ScannedFile) (answers : Answers) (s : Progress) :
    task.processFile file answers s = match task.generate file answers s with
      | .ok _ s₁ => .ok () { s₁ with processed := s₁.processed + 1 }
      | .error .exception s₁ =>
          .ok () { s₁ with errors := s₁.errors + 1, processed := s₁.processed + 1 }
      | .error .cancelled s₁ => .error .cancelled s₁ := by
  rw [StrmTask.processFile]
  cases hrun : task.generate file answers s with
  | ok _ s₁ =>
      rw [StateProgram.bind_ok (StateProgram.tryCatch_ok hrun)]
      rfl
  | error signal s₁ =>
      cases signal with
      | exception =>
          rw [StateProgram.bind_ok ((StateProgram.tryCatch_error hrun).trans rfl)]
          rfl
      | cancelled =>
          have hthrown : tryCatch (task.generate file answers) countError s = .error .cancelled s₁ :=
            StateProgram.tryCatch_error hrun
          rw [StateProgram.bind_error hthrown]

theorem processFile_ok (h : task.processFile file answers s = .ok () s') :
    s' = after task s (file, answers) := by
  rw [processFile_eq] at h
  rcases generate_cases task file answers s with
    ⟨signal, hverdict, hrun⟩ | ⟨hverdict, hrun⟩ | ⟨opening, hverdict, hcomplete, hrun⟩ |
      ⟨opening, hverdict, hcomplete, hrun⟩
  · rw [hrun] at h
    cases signal with
    | exception =>
        cases h
        simp [after, isError, hverdict, Verdict.opening?, Verdict.isGenerated, Verdict.isSkipped]
    | cancelled => cases h
  · rw [hrun] at h
    rcases hreported : answers.reported with _ | (_ | _)
    · rw [hreported] at h
      cases h
      simp [after, isError, hverdict, hreported, Verdict.opening?, Verdict.isGenerated, Verdict.isSkipped]
    · rw [hreported] at h
      cases h
      simp [after, isError, hverdict, hreported, Verdict.opening?, Verdict.isGenerated, Verdict.isSkipped]
    · rw [hreported] at h
      cases h
  · rw [hrun] at h
    rcases hreported : answers.reported with _ | (_ | _)
    · rw [hreported] at h
      cases h
      simp [after, openedAt, isError, hverdict, hreported, hcomplete, Verdict.opening?,
        Verdict.isGenerated, Verdict.isSkipped]
    · rw [hreported] at h
      cases h
      simp [after, openedAt, isError, hverdict, hreported, hcomplete, Verdict.opening?,
        Verdict.isGenerated, Verdict.isSkipped]
    · rw [hreported] at h
      cases h
  · rw [hrun] at h
    cases h
    simp [after, openedAt, isError, hverdict, hcomplete, Verdict.opening?, Verdict.isGenerated,
      Verdict.isSkipped]

/-- A run that goes through folds its files. -/
theorem processFiles_ok {turns : List (ScannedFile × Answers)}
    (h : task.processFiles turns s = .ok () s') : s' = turns.foldl (after task) s := by
  induction turns generalizing s with
  | nil =>
      cases h
      rfl
  | cons turn turns ih =>
      obtain ⟨_, s₁, hfirst, hrest⟩ := StateProgram.bind_eq_ok.mp h
      rw [List.foldl_cons, ← processFile_ok hfirst]
      exact ih hrest

end Turns

section Runs
variable (task : StrmTask) {turns : List (ScannedFile × Answers)}

/-- What should hold of a report about so many files: each is counted once, and each file that was
written and counted still holds the URL of the file for which it was generated. -/
structure Honest (count : ℕ) (report : ℕ × ℕ × ℕ × ℕ) (s : Progress) : Prop where
  processed : report.1 = count
  once : report.2.1 + report.2.2.1 + report.2.2.2 = count
  distinct : report.2.1 = ((s.opened.filter (·.complete)).map (·.location)).toFinset.card
  holds : ∀ opening ∈ s.opened, opening.complete = true →
    s.files.lookup opening.location = some (task.buildWebdavUrl opening.file.fullPath)
  lasting : s.opened.Pairwise fun a b => a.complete = true → b.location ≠ a.location

/-- The files that are opened in a run. -/
def openings (turns : List (ScannedFile × Answers)) : List Opening :=
  turns.filterMap fun turn => (verdict task turn).opening?

/-- No message fails after its file was counted. -/
def Reported (turns : List (ScannedFile × Answers)) : Prop :=
  ∀ turn ∈ turns, (verdict task turn).isGenerated = true ∨ (verdict task turn).isSkipped = true →
    turn.2.reported = none

/-- A file that was written is not opened for another one. -/
def OwnTargets (turns : List (ScannedFile × Answers)) : Prop :=
  (openings task turns).Pairwise fun a b => a.complete = true → b.location ≠ a.location

variable {task} {s s' : Progress}

theorem openings_append (turns turns' : List (ScannedFile × Answers)) :
    openings task (turns ++ turns') = openings task turns ++ openings task turns' :=
  List.filterMap_append

theorem openings_singleton (turn : ScannedFile × Answers) :
    openings task [turn] = (verdict task turn).opening?.toList := by
  rw [openings, List.filterMap_cons, List.filterMap_nil]
  cases (verdict task turn).opening? with
  | none => rfl
  | some opening => rfl

/-- The counters and the history after a run. -/
theorem foldl_after (turns : List (ScannedFile × Answers)) (s : Progress) :
    (turns.foldl (after task) s).processed = s.processed + turns.length ∧
    (turns.foldl (after task) s).generated =
      s.generated + turns.countP (fun turn => (verdict task turn).isGenerated) ∧
    (turns.foldl (after task) s).skipped =
      s.skipped + turns.countP (fun turn => (verdict task turn).isSkipped) ∧
    (turns.foldl (after task) s).errors = s.errors + turns.countP (isError task) ∧
    (turns.foldl (after task) s).opened = s.opened ++ openings task turns := by
  induction turns generalizing s with
  | nil => exact ⟨rfl, rfl, rfl, rfl, (List.append_nil _).symm⟩
  | cons turn turns ih =>
      obtain ⟨hprocessed, hgenerated, hskipped, herrors, hopened⟩ := ih (after task s turn)
      rw [List.foldl_cons, hprocessed, hgenerated, hskipped, herrors, hopened]
      simp only [List.countP_cons, List.length_cons, after]
      refine ⟨by omega, by omega, by omega, by omega, ?_⟩
      rw [← List.singleton_append, openings_append, openings_singleton, List.append_assoc]

/-- A file counts twice if its message fails after it was counted. -/
theorem countP_sum (turns : List (ScannedFile × Answers)) :
    (turns.countP fun turn => (verdict task turn).isGenerated) +
        (turns.countP fun turn => (verdict task turn).isSkipped) + turns.countP (isError task) =
      turns.length + turns.countP fun turn =>
        ((verdict task turn).isGenerated || (verdict task turn).isSkipped) && turn.2.reported.isSome := by
  induction turns with
  | nil => rfl
  | cons turn turns ih =>
      simp only [List.countP_cons, List.length_cons]
      have hturn : ((if (verdict task turn).isGenerated then 1 else 0) +
          (if (verdict task turn).isSkipped then 1 else 0) + if isError task turn then 1 else 0 : ℕ) =
          1 + if ((verdict task turn).isGenerated || (verdict task turn).isSkipped) &&
            turn.2.reported.isSome then 1 else 0 := by
        rw [isError]
        cases hverdict : verdict task turn with
        | failed => simp [Verdict.isGenerated, Verdict.isSkipped]
        | skipped =>
            cases hreported : turn.2.reported with
            | none => simp [Verdict.isGenerated, Verdict.isSkipped]
            | some signal => simp [Verdict.isGenerated, Verdict.isSkipped]
        | opened opening =>
            cases hcomplete : opening.complete with
            | false => simp [Verdict.isGenerated, Verdict.isSkipped, hcomplete]
            | true =>
                cases hreported : turn.2.reported with
                | none => simp [Verdict.isGenerated, Verdict.isSkipped, hcomplete]
                | some signal => simp [Verdict.isGenerated, Verdict.isSkipped, hcomplete]
      omega

theorem countP_eq_length_iff (turns : List (ScannedFile × Answers)) :
    (turns.countP fun turn => (verdict task turn).isGenerated) +
        (turns.countP fun turn => (verdict task turn).isSkipped) + turns.countP (isError task) =
      turns.length ↔ Reported task turns := by
  rw [countP_sum, Nat.add_eq_left, List.countP_eq_zero]
  refine forall₂_congr fun turn _ => ?_
  rw [Bool.and_eq_true, Bool.or_eq_true, not_and, Bool.not_eq_true, Option.isSome_eq_false_iff,
    Option.isNone_iff_eq_none]

/-- The generated files are the openings that were completed. -/
theorem length_filter_openings (turns : List (ScannedFile × Answers)) :
    ((openings task turns).filter (·.complete)).length =
      turns.countP fun turn => (verdict task turn).isGenerated := by
  induction turns with
  | nil => rfl
  | cons turn turns ih =>
      rw [← List.singleton_append, openings_append, openings_singleton, List.filter_append,
        List.length_append, ih, List.countP_append, List.countP_singleton]
      congr 1
      cases hverdict : verdict task turn with
      | failed => rfl
      | skipped => rfl
      | opened opening =>
          cases hcomplete : opening.complete with
          | false => simp [Verdict.opening?, Verdict.isGenerated, hcomplete]
          | true => simp [Verdict.opening?, Verdict.isGenerated, hcomplete]

theorem left_of_complete {turn : ScannedFile × Answers} {opening : Opening}
    (h : verdict task turn = .opened opening) (hcomplete : opening.complete = true) :
    left task turn = task.buildWebdavUrl opening.file.fullPath := by
  rw [verdict] at h
  split at h
  · split at h
    · cases h
    · split at h
      · cases h
        rw [left, ‹turn.2.write = .written›]
      · cases h
        cases hcomplete
      · cases h
  · cases h

/-- What was written is there as long as it is not opened again. -/
theorem lookup_foldl (files : FileMap (List Path) Path) (turns : List (ScannedFile × Answers))
    (h : OwnTargets task turns) : ∀ opening ∈ openings task turns, opening.complete = true →
      (turns.foldl (after task) { files }).files.lookup opening.location =
        some (task.buildWebdavUrl opening.file.fullPath) := by
  induction turns using List.reverseRecOn with
  | nil => exact fun _ hopening => absurd hopening List.not_mem_nil
  | append_singleton turns turn ih =>
      intro opening hopening hcomplete
      rw [OwnTargets, openings_append] at h
      obtain ⟨hbefore, -, hacross⟩ := List.pairwise_append.mp h
      rw [openings_append, List.mem_append] at hopening
      rw [openings_singleton] at hopening hacross
      rw [List.foldl_concat, after]
      dsimp only
      cases hverdict : verdict task turn with
      | failed =>
          rw [hverdict] at hopening
          exact ih hbefore opening (hopening.resolve_right List.not_mem_nil) hcomplete
      | skipped =>
          rw [hverdict] at hopening
          exact ih hbefore opening (hopening.resolve_right List.not_mem_nil) hcomplete
      | opened last =>
          rw [hverdict] at hopening hacross
          dsimp only [Verdict.opening?]
          rcases hopening with hearlier | hlast
          · have hother := hacross opening hearlier last List.mem_cons_self hcomplete
            rw [Finmap.lookup_insert_of_ne _ hother.symm]
            exact ih hbefore opening hearlier hcomplete
          · obtain rfl := List.mem_singleton.mp hlast
            rw [Finmap.lookup_insert, left_of_complete hverdict hcomplete]

theorem updateProgress_ok {answer : Option Signal} {u : Unit}
    (h : updateProgress answer s = .ok u s') : s' = s := by
  cases answer with
  | none =>
      cases h
      rfl
  | some signal => cases h

/-- How a report comes about. -/
theorem processScanned_ok {updates : StrmTask.Updates} {report : ℕ × ℕ × ℕ × ℕ}
    (h : task.processScanned updates turns s = .ok report s') :
    s' = turns.foldl (after task) s ∧
      report = if turns = [] then (0, 0, 0, 0)
        else (s'.processed, s'.generated, s'.skipped, s'.errors) := by
  obtain ⟨_, s₁, hscanning, hafter⟩ := StateProgram.bind_eq_ok.mp h
  obtain ⟨_, s₂, hfound, hrest⟩ := StateProgram.bind_eq_ok.mp hafter
  rw [updateProgress_ok hfound, updateProgress_ok hscanning] at hrest
  split_ifs at hrest with hempty
  · obtain ⟨_, s₃, hcompleted, hend⟩ := StateProgram.bind_eq_ok.mp hrest
    rw [updateProgress_ok hcompleted] at hend
    cases hend
    rw [List.length_eq_zero_iff.mp hempty]
    exact ⟨rfl, rfl⟩
  · obtain ⟨_, s₃, hfiles, hloop⟩ := StateProgram.bind_eq_ok.mp hrest
    obtain ⟨_, s₄, hcompleted, hend⟩ := StateProgram.bind_eq_ok.mp hloop
    rw [updateProgress_ok hcompleted] at hend
    cases hend
    rw [if_neg (mt List.length_eq_zero_iff.mpr hempty)]
    exact ⟨processFiles_ok hfiles, rfl⟩

/-- A report is honest exactly if no message failed after its file was counted, and no file that was
written was opened for another one. -/
theorem processScanned_honest_iff {updates : StrmTask.Updates} {report : ℕ × ℕ × ℕ × ℕ}
    {files : FileMap (List Path) Path}
    (h : task.processScanned updates turns { files } = .ok report s) :
    Honest task turns.length report s ↔ Reported task turns ∧ OwnTargets task turns := by
  obtain ⟨hs, hreport⟩ := processScanned_ok h
  obtain ⟨hprocessed, hgenerated, hskipped, herrors, hopened⟩ := foldl_after turns { files }
  rw [← hs, Nat.zero_add] at hprocessed hgenerated hskipped herrors
  rw [← hs, List.nil_append] at hopened
  have hcounts : report = (s.processed, s.generated, s.skipped, s.errors) := by
    rw [hreport]
    split_ifs with hempty
    · rw [hempty] at hs
      rw [hs]
      rfl
    · rfl
  have honce : s.generated + s.skipped + s.errors = turns.length ↔ Reported task turns := by
    rw [hgenerated, hskipped, herrors]
    exact countP_eq_length_iff turns
  rw [hcounts]
  constructor
  · intro h
    refine ⟨honce.mp h.once, ?_⟩
    rw [OwnTargets, ← hopened]
    exact h.lasting
  · rintro ⟨hreported, hown⟩
    refine ⟨hprocessed, honce.mpr hreported, ?_, ?_, ?_⟩
    · rw [hopened, List.toFinset_card_of_nodup, List.length_map, length_filter_openings, hgenerated]
      refine List.pairwise_map.mpr ((List.Pairwise.filter _ hown).imp_of_mem ?_)
      intro a b ha _ hab
      exact (hab (List.mem_filter.mp ha).2).symm
    · rw [hopened, hs]
      exact lookup_foldl files turns hown
    · rw [hopened]
      exact hown

end Runs

section Examples

def intoMedia : StrmTask where
  cwd := []
  targetDir := "/media".toList
  webdavUser := []
  webdavPass := []
  host := "localhost".toList
  port := 8000

def matchedTo (title : Path) : Answers where
  matched := .ok (some { title := some title, year := some 2021 }, 1)

def dune (rest : Path) : ScannedFile := ⟨[], "Dune".toList ++ rest, "/Dune".toList ++ rest, 1⟩

def duneStrm : List Path := ["media".toList, "Dune (2021)".toList, "Dune (2021).strm".toList]

/-- Two files that are matched to one film. -/
def twoDunes : List (ScannedFile × Answers) :=
  [(dune ".mkv".toList, matchedTo "Dune".toList), (dune " 2.mkv".toList, matchedTo "Dune".toList)]

/-- A file without a match, and with a message that fails. -/
def unmatched : List (ScannedFile × Answers) :=
  [(dune ".mkv".toList, { matched := .ok (none, 0), reported := some .exception })]

theorem one_dune_honest :
    Honest intoMedia 1 (1, 1, 0, 0) ((twoDunes.take 1).foldl (after intoMedia) { files := ∅ }) := by
  have hrun : intoMedia.processScanned {} (twoDunes.take 1) { files := ∅ } =
      .ok (1, 1, 0, 0) ((twoDunes.take 1).foldl (after intoMedia) { files := ∅ }) :=
    rfl
  refine (processScanned_honest_iff hrun).mpr ⟨?_, List.pairwise_singleton _ _⟩
  intro turn hturn _
  rw [List.mem_singleton.mp hturn]
  rfl

/-- The second file takes the place of the first, and both count as generated; a file is counted as
skipped and as an error. -/
theorem two_dunes_lost :
    (∃ s, intoMedia.processScanned {} twoDunes { files := ∅ } = .ok (2, 2, 0, 0) s ∧
      s.opened.map (·.location) = [duneStrm, duneStrm] ∧ ¬ Honest intoMedia 2 (2, 2, 0, 0) s) ∧
    ∃ s, intoMedia.processScanned {} unmatched { files := ∅ } = .ok (1, 0, 1, 1) s ∧
      ¬ Honest intoMedia 1 (1, 0, 1, 1) s := by
  refine ⟨⟨_, rfl, rfl, ?_⟩, ⟨_, rfl, ?_⟩⟩
  · intro h
    exact (List.pairwise_cons.mp h.lasting).1 _ List.mem_cons_self rfl rfl
  · intro h
    exact absurd h.once (by decide)

end Examples

end SmartMedia.Media.Organize
