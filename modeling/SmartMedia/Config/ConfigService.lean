import SmartMedia.Library.StateProgram

/-!
# Saving the configuration

`update_config` and `_save_config` of `app/services/config_service.py`. The validation of
`AppConfig` and PyYAML are given as functions; which step of the save raises is the answer
of the operating system. The change callbacks are run after the save; they reload other
components and leave the service alone.
-/
namespace SmartMedia.Config

/-- `AppConfig.model_validate`, `to_yaml` and `from_yaml`. -/
structure AppConfig (Payload Config Text : Type) where
  modelValidate : Payload → Except String Config
  dump : Config → Text
  fromYaml : Text → Except String Config

/-- Which steps of a save raise. A write that raises leaves something behind, or nothing. -/
structure Faults (Text : Type) where
  write : Option (String × Option Text) := none
  reread : Option String := none
  copy : Option (String × Option Text) := none
  replace : Option String := none
  getmtime : Option String := none
  remove : Option String := none
  mtime : ℕ := 0

/-- The service, and the files `config_path`, `config_path.tmp` and `config_path.bak`. -/
structure ConfigService (Config Text : Type) where
  config : Config
  lastGoodConfig : Config
  lastMtime : Option ℕ := none
  file : Option Text := none
  temp : Option Text := none
  backup : Option Text := none
  notified : ℕ := 0
  deriving DecidableEq, Repr

abbrev ConfigM (Config Text : Type) := EStateM String (ConfigService Config Text)

variable {Payload Config Text : Type} (app : AppConfig Payload Config Text) (faults : Faults Text)

/-- `self._config.to_yaml(temp_path)`. -/
def writeTemp : ConfigM Config Text Unit := fun s =>
  match faults.write with
  | none => .ok () { s with temp := some (app.dump s.config) }
  | some (error, left) => .error error { s with temp := left }

/-- `AppConfig.from_yaml(temp_path)`. -/
def rereadTemp : ConfigM Config Text Unit := fun s =>
  match faults.reread, s.temp with
  | some error, _ => .error error s
  | none, none => .error "Config file not found" s
  | none, some text =>
      match app.fromYaml text with
      | .error error => .error error s
      | .ok _ => .ok () s

/-- `shutil.copy2(self.config_path, backup_path)`, if there is a file. -/
def copyBackup : ConfigM Config Text Unit := fun s =>
  match s.file, faults.copy with
  | none, _ => .ok () s
  | some text, none => .ok () { s with backup := some text }
  | some _, some (error, left) => .error error { s with backup := left }

/-- `os.replace(temp_path, self.config_path)`. -/
def replaceFile : ConfigM Config Text Unit := fun s =>
  match faults.replace, s.temp with
  | some error, _ => .error error s
  | none, none => .error "No such file or directory" s
  | none, some text => .ok () { s with file := some text, temp := none }

/-- The last two assignments of the `try` block. -/
def rememberSaved : ConfigM Config Text Unit := fun s =>
  let s := { s with lastGoodConfig := s.config }
  match faults.getmtime with
  | none => .ok () { s with lastMtime := some faults.mtime }
  | some error => .error error s

/-- The handler: the temporary file is removed and the exception raised again. -/
def cleanupTemp (error : String) : ConfigM Config Text Unit := fun s =>
  match s.temp, faults.remove with
  | none, _ => .error error s
  | some _, none => .error error { s with temp := none }
  | some _, some error' => .error error' s

/-- The body of the `try` block. -/
def saveSteps : ConfigM Config Text Unit := do
  writeTemp app faults
  rereadTemp app faults
  copyBackup faults
  replaceFile faults
  rememberSaved faults

def saveConfig : ConfigM Config Text Unit := tryCatch (saveSteps app faults) (cleanupTemp faults)

def notifyConfigChanged : ConfigM Config Text Unit :=
  modify fun s => { s with notified := s.notified + 1 }

def getConfig : ConfigM Config Text Config := do return (← get).config

def updateConfig (newConfig : Payload) : ConfigM Config Text Config := do
  match app.modelValidate newConfig with
  | .error error => throw ("Invalid config: " ++ error)
  | .ok config =>
      modify fun s => { s with config }
      saveConfig app faults
      notifyConfigChanged
      getConfig

namespace ConfigService
variable (s : ConfigService Config Text) (newConfig : Payload) (config : Config)

/-- A step up to `os.replace` raises when `config` is saved. -/
def RaisesBeforeReplace : Prop :=
  faults.write.isSome ∨ faults.reread.isSome ∨ (∃ error, app.fromYaml (app.dump config) = .error error) ∨
    (s.file.isSome ∧ faults.copy.isSome) ∨ faults.replace.isSome

/-- What the call promises to a caller: all or nothing, in memory and on disk. -/
def Atomic : Prop :=
  match updateConfig app faults newConfig s with
  | .ok returned s' =>
      app.modelValidate newConfig = .ok returned ∧ s'.config = returned ∧
        s'.file = some (app.dump returned)
  | .error _ s' => s'.config = s.config ∧ s'.file = s.file

end ConfigService

section Save
open ConfigService
variable {app faults} {s : ConfigService Config Text}

/-- How a save ends: with the old file, with the new file and an exception, or well. -/
inductive SaveEnd (app : AppConfig Payload Config Text) (faults : Faults Text)
    (s : ConfigService Config Text) : EStateM.Result String (ConfigService Config Text) Unit → Prop
  | failed {error : String} {s' : ConfigService Config Text} :
      RaisesBeforeReplace app faults s s.config → s'.config = s.config → s'.file = s.file →
      SaveEnd app faults s (.error error s')
  | replaced {error : String} {s' : ConfigService Config Text} :
      ¬ RaisesBeforeReplace app faults s s.config → faults.getmtime.isSome → s'.config = s.config →
      s'.file = some (app.dump s.config) → SaveEnd app faults s (.error error s')
  | saved {s' : ConfigService Config Text} :
      ¬ RaisesBeforeReplace app faults s s.config → faults.getmtime.isSome = false →
      s'.config = s.config → s'.file = some (app.dump s.config) → SaveEnd app faults s (.ok () s')

theorem copyBackup_cases (faults : Faults Text) (s : ConfigService Config Text) :
    (s.file.isSome ∧ faults.copy.isSome) ∧ (∃ error backup,
      copyBackup faults s = .error error { s with backup := backup }) ∨
    ¬ (s.file.isSome ∧ faults.copy.isSome) ∧
      ∃ backup, copyBackup faults s = .ok () { s with backup := backup } := by
  rcases Option.eq_none_or_eq_some s.file with hfile | ⟨text, hfile⟩
  · refine .inr ⟨by simp [hfile], s.backup, ?_⟩
    simp only [copyBackup, hfile]
    rw [← hfile]
  · rcases Option.eq_none_or_eq_some faults.copy with hcopy | ⟨fault, hcopy⟩
    · exact .inr ⟨by simp [hcopy], some text, by simp only [copyBackup, hfile, hcopy]⟩
    · exact .inl ⟨by simp [hfile, hcopy], fault.1, fault.2, by simp only [copyBackup, hfile, hcopy]⟩

theorem saveSteps_end (app : AppConfig Payload Config Text) (faults : Faults Text)
    (s : ConfigService Config Text) : SaveEnd app faults s (saveSteps app faults s) := by
  rw [saveSteps]
  cases hwrite : faults.write with
  | some fault =>
      have hstep : writeTemp app faults s = .error fault.1 { s with temp := fault.2 } := by
        rw [writeTemp, hwrite]
      rw [StateProgram.bind_error hstep]
      exact .failed (.inl (by rw [hwrite]; rfl)) rfl rfl
  | none =>
  let s₁ : ConfigService Config Text := { s with temp := some (app.dump s.config) }
  have hstep₁ : writeTemp app faults s = .ok () s₁ := by rw [writeTemp, hwrite]
  rw [StateProgram.bind_ok hstep₁]
  cases hreread : faults.reread with
  | some error =>
      have hstep : rereadTemp app faults s₁ = .error error s₁ := by rw [rereadTemp, hreread]
      rw [StateProgram.bind_error hstep]
      exact .failed (.inr (.inl (by rw [hreread]; rfl))) rfl rfl
  | none =>
  cases hyaml : app.fromYaml (app.dump s.config) with
  | error error =>
      have hstep : rereadTemp app faults s₁ = .error error s₁ := by
        simp only [rereadTemp, hreread, s₁, hyaml]
      rw [StateProgram.bind_error hstep]
      exact .failed (.inr (.inr (.inl ⟨error, hyaml⟩))) rfl rfl
  | ok read =>
  have hstep₂ : rereadTemp app faults s₁ = .ok () s₁ := by
    simp only [rereadTemp, hreread, s₁, hyaml]
  rw [StateProgram.bind_ok hstep₂]
  rcases copyBackup_cases faults s₁ with ⟨hcopy, error, backup, hstep⟩ | ⟨hcopy, backup, hstep₃⟩
  · rw [StateProgram.bind_error hstep]
    exact .failed (.inr (.inr (.inr (.inl hcopy)))) rfl rfl
  let s₂ : ConfigService Config Text := { s₁ with backup := backup }
  rw [StateProgram.bind_ok hstep₃]
  cases hreplace : faults.replace with
  | some error =>
      have hstep : replaceFile faults s₂ = .error error s₂ := by rw [replaceFile, hreplace]
      rw [StateProgram.bind_error hstep]
      exact .failed (.inr (.inr (.inr (.inr (by rw [hreplace]; rfl))))) rfl rfl
  | none =>
  let s₃ : ConfigService Config Text := { s₂ with file := some (app.dump s.config), temp := none }
  have hstep₄ : replaceFile faults s₂ = .ok () s₃ := by simp only [replaceFile, hreplace, s₂, s₁, s₃]
  have hbefore : ¬ RaisesBeforeReplace app faults s s.config := by
    rintro (h | h | ⟨error, h⟩ | h | h)
    · simp [hwrite] at h
    · simp [hreread] at h
    · rw [hyaml] at h
      cases h
    · exact hcopy h
    · simp [hreplace] at h
  rw [StateProgram.bind_ok hstep₄]
  cases hmtime : faults.getmtime with
  | some error =>
      have hstep : rememberSaved faults s₃ = .error error { s₃ with lastGoodConfig := s₃.config } := by
        simp only [rememberSaved, hmtime]
      rw [hstep]
      exact .replaced hbefore (by rw [hmtime]; rfl) rfl rfl
  | none =>
      have hstep : rememberSaved faults s₃ =
          .ok () { s₃ with lastGoodConfig := s₃.config, lastMtime := some faults.mtime } := by
        simp only [rememberSaved, hmtime]
      rw [hstep]
      exact .saved hbefore (by rw [hmtime]; rfl) rfl rfl

/-- The handler ends with an exception and touches the temporary file only. -/
theorem cleanupTemp_error (faults : Faults Text) (error : String) (s : ConfigService Config Text) :
    ∃ error' s', cleanupTemp faults error s = .error error' s' ∧ s'.config = s.config ∧
      s'.file = s.file := by
  rw [cleanupTemp]
  cases s.temp with
  | none => exact ⟨error, s, rfl, rfl, rfl⟩
  | some text =>
      cases faults.remove with
      | none => exact ⟨error, { s with temp := none }, rfl, rfl, rfl⟩
      | some error' => exact ⟨error', s, rfl, rfl, rfl⟩

theorem saveConfig_end (app : AppConfig Payload Config Text) (faults : Faults Text)
    (s : ConfigService Config Text) : SaveEnd app faults s (saveConfig app faults s) := by
  have hsteps := saveSteps_end app faults s
  rw [saveConfig]
  cases hresult : saveSteps app faults s with
  | ok u s' =>
      rw [StateProgram.tryCatch_ok hresult, ← hresult]
      exact hsteps
  | error error s' =>
      obtain ⟨error', s'', hcleanup, hconfig, hfile⟩ := cleanupTemp_error faults error s'
      rw [StateProgram.tryCatch_error hresult, hcleanup]
      rw [hresult] at hsteps
      cases hsteps with
      | failed hraises hconfig' hfile' =>
          exact .failed hraises (hconfig.trans hconfig') (hfile.trans hfile')
      | replaced hraises hmtime hconfig' hfile' =>
          exact .replaced hraises hmtime (hconfig.trans hconfig') (hfile.trans hfile')

end Save

namespace ConfigService

/-- A configuration the model rejects is not stored. -/
theorem atomic_of_invalid {newConfig : Payload} {error : String} (s : ConfigService Config Text)
    (hvalid : app.modelValidate newConfig = .error error) : s.Atomic app faults newConfig := by
  have hrun : updateConfig app faults newConfig s = .error ("Invalid config: " ++ error) s := by
    rw [updateConfig, hvalid]
    rfl
  rw [Atomic, hrun]
  exact ⟨rfl, rfl⟩

/-- A configuration the model accepts is stored before it is saved: the call is atomic only if the
save goes through, or if the stored configuration and file are those of before. -/
theorem atomic_iff_of_valid {newConfig : Payload} {config : Config} (s : ConfigService Config Text)
    (hvalid : app.modelValidate newConfig = .ok config) :
    s.Atomic app faults newConfig ↔
      (¬ s.RaisesBeforeReplace app faults config ∧ faults.getmtime.isSome = false) ∨
        (config = s.config ∧
          (s.RaisesBeforeReplace app faults config ∨ s.file = some (app.dump config))) := by
  let s₁ : ConfigService Config Text := { s with config := config }
  have hsave := saveConfig_end app faults s₁
  have hrun : updateConfig app faults newConfig s =
      (saveConfig app faults >>= fun _ => notifyConfigChanged >>= fun _ => getConfig) s₁ := by
    rw [updateConfig, hvalid]
    rfl
  rw [Atomic, hrun, hvalid]
  cases hresult : saveConfig app faults s₁ with
  | ok u s₂ =>
      rw [hresult] at hsave
      cases hsave with
      | saved hbefore hmtime hconfig hfile =>
          have hdone : (notifyConfigChanged >>= fun _ => getConfig : ConfigM Config Text Config) s₂ =
              .ok s₂.config { s₂ with notified := s₂.notified + 1 } := rfl
          rw [StateProgram.bind_ok hresult, hdone]
          have hatomic : Except.ok config = (.ok s₂.config : Except String Config) ∧
              s₂.config = s₂.config ∧ s₂.file = some (app.dump s₂.config) := by
            rw [hconfig]
            exact ⟨rfl, rfl, hfile⟩
          exact iff_of_true hatomic (.inl ⟨hbefore, hmtime⟩)
  | error error s₂ =>
      rw [hresult] at hsave
      rw [StateProgram.bind_error hresult]
      cases hsave with
      | failed hbefore hconfig hfile =>
          change s₂.config = s.config ∧ s₂.file = s.file ↔ _
          rw [hconfig, hfile]
          constructor
          · intro h
            exact .inr ⟨h.1, .inl hbefore⟩
          · rintro (h | h)
            · exact absurd hbefore h.1
            · exact ⟨h.1, rfl⟩
      | replaced hbefore hmtime hconfig hfile =>
          change s₂.config = s.config ∧ s₂.file = s.file ↔ _
          rw [hconfig, hfile]
          constructor
          · intro h
            exact .inr ⟨h.1, .inr h.2.symm⟩
          · rintro (h | h)
            · rw [hmtime] at h
              exact absurd h.2 nofun
            · exact ⟨h.1, (h.2.resolve_left hbefore).symm⟩

/-- When a call is atomic: the configuration is invalid, no step of its save raises, or it is
the current one and what has happened to the file cannot be told from nothing. -/
theorem updateConfig_atomic_iff (s : ConfigService Config Text) (newConfig : Payload) :
    s.Atomic app faults newConfig ↔
      ∀ config, app.modelValidate newConfig = .ok config →
        (¬ s.RaisesBeforeReplace app faults config ∧ faults.getmtime.isSome = false) ∨
          (config = s.config ∧
            (s.RaisesBeforeReplace app faults config ∨ s.file = some (app.dump config))) := by
  cases hvalid : app.modelValidate newConfig with
  | error error =>
      refine iff_of_true (atomic_of_invalid app faults s hvalid) ?_
      intro config hconfig
      cases hconfig
  | ok config =>
      rw [atomic_iff_of_valid app faults s hvalid]
      constructor
      · intro h config' hconfig'
        cases hconfig'
        exact h
      · intro h
        exact h config rfl

/-- Settings that are kept as their own text. -/
def plainApp : AppConfig String String String := ⟨.ok, id, .ok⟩

/-- `os.replace` fails; the rejected settings are in force. -/
theorem updateConfig_not_atomic :
    ¬ ConfigService.Atomic plainApp { replace := some "Device or resource busy" }
      { config := "old", lastGoodConfig := "old", file := some "old" } "new" := by
  rintro ⟨hconfig, -⟩
  exact absurd hconfig (by decide)

end ConfigService

end SmartMedia.Config
