import SmartMedia.Library.PartialRun
import SmartMedia.Playback.LinkCache

/-!
# Resolving direct links side by side

`LinkResolver.resolve` of `app/services/link_resolver.py` and `ProxyService.redirect_302` of
`app/services/proxy_service.py`, any number of calls on one link cache. A call gives way where it
awaits the cache, Quark or AList. `provided` lists the links that the providers have given, each
with the file of the call, and `stored` those that were written to the cache, with the time.
-/
namespace SmartMedia.Playback

/-- What awaiting Quark or AList comes to. -/
inductive ProviderAnswer
  | link (url : String)
  | nothing
  | raised (error : String)
  deriving DecidableEq, Repr

def ProviderAnswer.links : ProviderAnswer → List String
  | .link url => [url]
  | _ => []

/-- Where a call is; one that found its link in the cache returns with the time it read there. -/
inductive LinkStage
  | checking
  | quark
  | alist (lastError : Option String)
  | storing (url : String)
  | returned (url : String) (checkedAt : Option ℚ)
  | raised (error : String)
  deriving DecidableEq, Repr

/-- A call of `resolve`, or of `redirect_302`; `alist` tells whether AList is enabled and there is a
path. `errors` lists what the providers have raised. -/
structure LinkCall where
  fileId : String
  redirects : Bool
  quarkService : Bool
  alist : Bool
  stage : LinkStage := .checking
  errors : List String := []
  deriving DecidableEq, Repr

namespace LinkCall

def noResolver : String := "No available link resolver service"

def noLink : String := "'NoneType' object has no attribute 'url'"

/-- `resolve` behind its attempt with Quark. -/
def afterQuark (call : LinkCall) (lastError : Option String) : LinkStage :=
  if call.alist then .alist lastError else .raised (lastError.getD noResolver)

/-- The call behind a miss. -/
def missed (call : LinkCall) : LinkStage :=
  if call.redirects ∨ call.quarkService then .quark else call.afterQuark none

/-- The stage behind an answer, and the error in the answer. -/
def answered (call : LinkCall) (answer : ProviderAnswer) : Option (LinkStage × Option String) :=
  match call.stage with
  | .quark =>
      if call.redirects then
        match answer with
        | .link url => some (.storing url, none)
        | .nothing => some (.raised noLink, none)
        | .raised error => some (.raised error, some error)
      else
        match answer with
        | .link url => some (if url = "" then call.afterQuark none else .storing url, none)
        | .nothing => some (call.afterQuark none, none)
        | .raised error => some (call.afterQuark (some error), some error)
  | .alist lastError =>
      match answer with
      | .link url =>
          some (if url = "" then .raised (lastError.getD noResolver) else .storing url, none)
      | .nothing => some (.raised (lastError.getD noResolver), none)
      -- the first error is the one that is raised
      | .raised error => some (.raised (lastError.getD error), some error)
  | _ => none

end LinkCall

structure LinkSystem where
  cache : LinkCache
  calls : List LinkCall := []
  provided : List (String × String) := []
  stored : List (String × String × ℚ) := []
  deriving DecidableEq, Repr

/-- `check` and `store` are the cache accesses of a call; the last three are other users'. -/
inductive LinkEvent
  | resolve (fileId : String) (quarkService alist : Bool)
  | redirect (fileId : String)
  | check (i : ℕ) (checkedAt touchedAt : ℚ)
  | answer (i : ℕ) (answer : ProviderAnswer)
  | store (i : ℕ) (checked : String → ℚ) (created : ℚ) (headers : List (String × String))
  | delete (fileId : String)
  | clear
  | cleanup (checked : String → ℚ)

namespace LinkSystem

def setCall (s : LinkSystem) (i : ℕ) (call : LinkCall) : LinkSystem :=
  { s with calls := s.calls.set i call }

/-- `cache.get`. -/
def check (s : LinkSystem) (i : ℕ) (call : LinkCall) (checkedAt touchedAt : ℚ) : LinkSystem :=
  let got := s.cache.get checkedAt touchedAt call.fileId
  let stage := match got.1 with
    | some entry => .returned entry.value (some checkedAt)
    | none => call.missed
  { s with cache := got.2 }.setCall i { call with stage }

/-- The answer of a provider. -/
def answer (s : LinkSystem) (i : ℕ) (call : LinkCall) (answer : ProviderAnswer) : Option LinkSystem :=
  (call.answered answer).map fun moved =>
    { s with provided := answer.links.map (call.fileId, ·) ++ s.provided }.setCall i
      { call with stage := moved.1, errors := call.errors ++ moved.2.toList }

/-- `cache.set`: `resolve` sets a time to live, `redirect_302` leaves it to the cache. -/
def store (s : LinkSystem) (i : ℕ) (call : LinkCall) (checked : String → ℚ) (created : ℚ)
    (headers : List (String × String)) : Option LinkSystem :=
  match call.stage with
  | .storing url =>
      let cache := if call.redirects then s.cache.set checked created call.fileId url headers none
        else s.cache.set checked created call.fileId url [] (some 600)
      some ({ s with cache, stored := (call.fileId, url, created) :: s.stored }.setCall i
        { call with stage := .returned url none })
  | _ => none

def step (s : LinkSystem) : LinkEvent → Option LinkSystem
  | .resolve fileId quarkService alist =>
      some { s with calls := s.calls ++ [{ fileId, redirects := false, quarkService, alist }] }
  | .redirect fileId =>
      some { s with
        calls := s.calls ++ [{ fileId, redirects := true, quarkService := true, alist := false }] }
  | .check i checkedAt touchedAt =>
      (s.calls[i]?).bind fun call =>
        if call.stage = .checking then some (s.check i call checkedAt touchedAt) else none
  | .answer i answer => (s.calls[i]?).bind fun call => s.answer i call answer
  | .store i checked created headers =>
      (s.calls[i]?).bind fun call => s.store i call checked created headers
  | .delete fileId => some { s with cache := s.cache.remove fileId }
  | .clear => some { s with cache := s.cache.clear }
  | .cleanup checked => some { s with cache := s.cache.cleanupTurn checked }

section Runs
variable {s s' : LinkSystem} {e : LinkEvent} {events : List LinkEvent} {call : LinkCall} {i : ℕ}
  {defaultTtl : ℚ} {maxSize : ℤ}

/-- No link lives longer in the cache. -/
def longestTtl (s : LinkSystem) : ℚ := max 600 s.cache.defaultTtl

/-- An entry comes from a provider, for the file that is its key. -/
def EntrySound (s : LinkSystem) (entry : CacheEntry) : Prop :=
  (entry.key, entry.value, entry.createdAt) ∈ s.stored ∧
    entry.expiresAt ≤ entry.createdAt + s.longestTtl

/-- A link comes from a provider, for the file of the call; if it was read in the cache, it was
written there no longer ago than links live. -/
def LinkSound (s : LinkSystem) (fileId url : String) (checkedAt : Option ℚ) : Prop :=
  (fileId, url) ∈ s.provided ∧ ∀ t, checkedAt = some t →
    ∃ created, (fileId, url, created) ∈ s.stored ∧ t ≤ created + s.longestTtl

/-- What a call with these errors can say at its stage. -/
def StageSound (s : LinkSystem) (fileId : String) (redirects : Bool) (errors : List String) :
    LinkStage → Prop
  | .checking => errors = []
  | .quark => errors = []
  | .alist lastError => lastError = errors.head?
  | .storing url => (fileId, url) ∈ s.provided
  | .returned url checkedAt => s.LinkSound fileId url checkedAt
  | .raised error => redirects = false → error = errors.head?.getD LinkCall.noResolver

def CallSound (s : LinkSystem) (call : LinkCall) : Prop :=
  s.StageSound call.fileId call.redirects call.errors call.stage

structure Sound (s : LinkSystem) : Prop where
  wellKept : s.cache.WellKept
  entries : ∀ entry ∈ s.cache.entries, s.EntrySound entry
  stored : ∀ link ∈ s.stored, (link.1, link.2.1) ∈ s.provided
  calls : ∀ call ∈ s.calls, s.CallSound call

/-- What the histories list stays there. -/
structure Extends (s s' : LinkSystem) : Prop where
  provided : ∀ link ∈ s.provided, link ∈ s'.provided
  stored : ∀ link ∈ s.stored, link ∈ s'.stored
  longestTtl : s'.longestTtl = s.longestTtl

theorem EntrySound.mono {entry : CacheEntry} (h : s.EntrySound entry) (hext : Extends s s') :
    s'.EntrySound entry := by
  refine ⟨hext.stored _ h.1, ?_⟩
  rw [hext.longestTtl]
  exact h.2

theorem CallSound.mono (h : s.CallSound call) (hext : Extends s s') : s'.CallSound call := by
  rw [CallSound] at h ⊢
  cases hstage : call.stage with
  | checking | quark | alist _ | raised _ =>
      rw [hstage] at h
      exact h
  | storing url =>
      rw [hstage] at h
      exact hext.provided _ h
  | returned url checkedAt =>
      rw [hstage] at h
      refine ⟨hext.provided _ h.1, fun t ht => ?_⟩
      obtain ⟨created, hstored, hle⟩ := h.2 t ht
      refine ⟨created, hext.stored _ hstored, ?_⟩
      rw [hext.longestTtl]
      exact hle

/-- One call moves on, the others stay where they are. -/
theorem Sound.of_setCall (hext : Extends s s') (hcalls : s'.calls = s.calls.set i call)
    (h : s.Sound) (hkept : s'.cache.WellKept) (hentries : ∀ entry ∈ s'.cache.entries, s'.EntrySound entry)
    (hstored : ∀ link ∈ s'.stored, (link.1, link.2.1) ∈ s'.provided) (hcall : s'.CallSound call) :
    s'.Sound := by
  refine ⟨hkept, hentries, hstored, fun other hmem => ?_⟩
  rw [hcalls] at hmem
  rcases List.mem_or_eq_of_mem_set hmem with hold | rfl
  · exact (h.calls other hold).mono hext
  · exact hcall

/-- Quark has not answered with a link. -/
theorem stageSound_afterQuark {fileId : String} {redirects : Bool} (lastError : Option String) :
    s.StageSound fileId redirects lastError.toList (call.afterQuark lastError) := by
  rw [LinkCall.afterQuark]
  split_ifs
  · cases lastError <;> rfl
  · intro _
    cases lastError <;> rfl

theorem stageSound_missed : s.StageSound call.fileId call.redirects [] call.missed := by
  rw [LinkCall.missed]
  split_ifs
  · rfl
  · exact stageSound_afterQuark none

theorem Sound.check (h : s.Sound) (hcall : s.calls[i]? = some call) (hstage : call.stage = .checking)
    (checkedAt touchedAt : ℚ) : (s.check i call checkedAt touchedAt).Sound := by
  have herrors := h.calls call (List.mem_of_getElem? hcall)
  rw [CallSound, hstage] at herrors
  have hext : Extends s (s.check i call checkedAt touchedAt) := by
    refine ⟨fun _ h => h, fun _ h => h, ?_⟩
    exact congrArg (max 600) (LinkCache.get_settings checkedAt touchedAt call.fileId).1
  refine .of_setCall hext rfl h (h.wellKept.get _ _ _) ?_ h.stored ?_
  · exact LinkCache.forall_get (Q := EntrySound _) (fun _ _ h => h)
      fun entry hentry => (h.entries entry hentry).mono hext
  · rw [CallSound]
    dsimp only
    rw [herrors]
    cases hgot : (s.cache.get checkedAt touchedAt call.fileId).1 with
    | none => exact stageSound_missed
    | some entry =>
        obtain ⟨old, hmem, hkey, rfl, hin⟩ := LinkCache.mem_of_get hgot
        obtain ⟨hstored, hexpires⟩ := h.entries old hmem
        rw [hkey] at hstored
        refine ⟨h.stored _ hstored, fun t ht => ⟨old.createdAt, hstored, ?_⟩⟩
        obtain rfl := Option.some.inj ht
        rw [hext.longestTtl]
        exact hin.trans hexpires

/-- What an answer makes of a call. -/
theorem stageSound_answered {answer : ProviderAnswer} {stage : LinkStage} {error : Option String}
    (hcall : s.CallSound call) (hanswer : call.answered answer = some (stage, error))
    (hlink : ∀ url, answer = .link url → (call.fileId, url) ∈ s.provided) :
    s.StageSound call.fileId call.redirects (call.errors ++ error.toList) stage := by
  rw [CallSound] at hcall
  unfold LinkCall.answered at hanswer
  cases hstage : call.stage with
  | quark =>
      rw [hstage] at hanswer hcall
      have herrors : call.errors = [] := hcall
      rw [herrors, List.nil_append]
      dsimp only at hanswer
      split_ifs at hanswer with hredirects
      · cases answer with
        | link url =>
            cases hanswer
            exact hlink url rfl
        | nothing =>
            cases hanswer
            exact fun hno => absurd hredirects (by rw [hno]; exact Bool.false_ne_true)
        | raised error =>
            cases hanswer
            exact fun hno => absurd hredirects (by rw [hno]; exact Bool.false_ne_true)
      · cases answer with
        | link url =>
            cases hanswer
            split_ifs
            · exact stageSound_afterQuark none
            · exact hlink url rfl
        | nothing =>
            cases hanswer
            exact stageSound_afterQuark none
        | raised error =>
            cases hanswer
            exact stageSound_afterQuark (some error)
  | alist lastError =>
      rw [hstage] at hanswer hcall
      have hlast : lastError = call.errors.head? := hcall
      cases answer with
      | link url =>
          cases hanswer
          split_ifs
          · intro _
            rw [hlast, Option.toList_none, List.append_nil]
          · exact hlink url rfl
      | nothing =>
          cases hanswer
          intro _
          rw [hlast, Option.toList_none, List.append_nil]
      | raised error =>
          cases hanswer
          intro _
          rw [hlast, List.head?_append]
          cases call.errors.head? <;> rfl
  | checking | storing _ | returned _ _ | raised _ =>
      rw [hstage] at hanswer
      cases hanswer

theorem Sound.answer (h : s.Sound) {answer : ProviderAnswer} (hcall : s.calls[i]? = some call)
    (hstep : s.answer i call answer = some s') : s'.Sound := by
  rw [LinkSystem.answer, Option.map_eq_some_iff] at hstep
  obtain ⟨moved, hanswer, rfl⟩ := hstep
  have hext : Extends s ({ s with
      provided := answer.links.map (call.fileId, ·) ++ s.provided }.setCall i
      { call with stage := moved.1, errors := call.errors ++ moved.2.toList }) :=
    ⟨fun _ hmem => List.mem_append_right _ hmem, fun _ h => h, rfl⟩
  refine .of_setCall hext rfl h h.wellKept (fun entry hentry => h.entries entry hentry)
    (fun link hmem => hext.provided _ (h.stored link hmem)) ?_
  refine stageSound_answered ((h.calls call (List.mem_of_getElem? hcall)).mono hext) hanswer ?_
  rintro url rfl
  exact List.mem_cons_self

theorem Sound.store (h : s.Sound) {checked : String → ℚ} {created : ℚ}
    {headers : List (String × String)} (hcall : s.calls[i]? = some call)
    (hstep : s.store i call checked created headers = some s') : s'.Sound := by
  have hsound := h.calls call (List.mem_of_getElem? hcall)
  rw [CallSound] at hsound
  rw [LinkSystem.store] at hstep
  cases hstage : call.stage with
  | storing url =>
      rw [hstage] at hstep hsound
      cases hstep
      have hprovided : (call.fileId, url) ∈ s.provided := hsound
      -- the two kinds of calls differ in the headers and the time to live
      have hboth : ∀ headers ttl, ttl = none ∨ ttl = some 600 →
          Sound ({ s with
            cache := s.cache.set checked created call.fileId url headers ttl
            stored := (call.fileId, url, created) :: s.stored }.setCall i
              { call with stage := .returned url none }) := by
        intro headers ttl httl
        have hsettings : (s.cache.set checked created call.fileId url headers ttl).defaultTtl =
            s.cache.defaultTtl ∧ _ := LinkCache.set_settings created call.fileId url headers ttl
        have hext : Extends s ({ s with
            cache := s.cache.set checked created call.fileId url headers ttl
            stored := (call.fileId, url, created) :: s.stored }.setCall i
              { call with stage := .returned url none }) :=
          ⟨fun _ h => h, fun _ hmem => List.mem_cons_of_mem _ hmem, congrArg (max 600) hsettings.1⟩
        refine .of_setCall hext rfl h (h.wellKept.set _ _ _ _ _) ?_ ?_ ?_
        · refine LinkCache.forall_set (Q := EntrySound _)
            (fun entry hentry => (h.entries entry hentry).mono hext) ⟨List.mem_cons_self, ?_⟩
          rw [hext.longestTtl]
          have hlong : s.cache.cacheTtl ttl ≤ s.longestTtl := by
            rcases httl with rfl | rfl
            · exact le_max_right 600 s.cache.defaultTtl
            · exact le_max_left 600 s.cache.defaultTtl
          exact add_le_add_right hlong created
        · intro link hmem
          rcases List.mem_cons.mp hmem with rfl | hold
          · exact hprovided
          · exact h.stored link hold
        · refine ⟨hprovided, fun t ht => ?_⟩
          cases ht
      by_cases hredirects : call.redirects = true
      · rw [if_pos hredirects]
        exact hboth headers none (.inl rfl)
      · rw [if_neg hredirects]
        exact hboth [] (some 600) (.inr rfl)
  | checking | quark | alist _ | returned _ _ | raised _ =>
      rw [hstage] at hstep
      cases hstep

/-- Other users of the cache. -/
theorem Sound.of_cache {cache : LinkCache} (h : s.Sound) (hkept : cache.WellKept)
    (hsettings : cache.defaultTtl = s.cache.defaultTtl)
    (hentries : ∀ entry ∈ cache.entries, s.EntrySound entry) : Sound { s with cache } := by
  have hext : Extends s { s with cache } :=
    ⟨fun _ h => h, fun _ h => h, congrArg (max 600) hsettings⟩
  refine ⟨hkept, fun entry hentry => (hentries entry hentry).mono hext, h.stored, fun call hcall => ?_⟩
  exact (h.calls call hcall).mono hext

/-- A call that begins. -/
theorem Sound.of_begin (h : s.Sound) (hstage : call.stage = .checking) (herrors : call.errors = []) :
    Sound { s with calls := s.calls ++ [call] } := by
  refine ⟨h.wellKept, h.entries, h.stored, fun other hmem => ?_⟩
  rcases List.mem_append.mp hmem with hold | hnew
  · exact h.calls other hold
  · obtain rfl := List.mem_singleton.mp hnew
    rw [CallSound, hstage]
    exact herrors

theorem Sound.step (h : s.Sound) (hstep : s.step e = some s') : s'.Sound := by
  cases e with
  | resolve fileId quarkService alist =>
      cases hstep
      exact h.of_begin rfl rfl
  | redirect fileId =>
      cases hstep
      exact h.of_begin rfl rfl
  | check i checkedAt touchedAt =>
      rw [LinkSystem.step, Option.bind_eq_some_iff] at hstep
      obtain ⟨call, hcall, hstep⟩ := hstep
      split_ifs at hstep with hstage
      cases hstep
      exact h.check hcall hstage checkedAt touchedAt
  | answer i answer =>
      rw [LinkSystem.step, Option.bind_eq_some_iff] at hstep
      obtain ⟨call, hcall, hstep⟩ := hstep
      exact h.answer hcall hstep
  | store i checked created headers =>
      rw [LinkSystem.step, Option.bind_eq_some_iff] at hstep
      obtain ⟨call, hcall, hstep⟩ := hstep
      exact h.store hcall hstep
  | delete fileId =>
      cases hstep
      exact h.of_cache (h.wellKept.remove fileId) rfl (LinkCache.forall_remove h.entries)
  | clear =>
      cases hstep
      refine h.of_cache (LinkCache.WellKept.clear s.cache) rfl fun entry hentry => ?_
      cases hentry
  | cleanup checked =>
      cases hstep
      exact h.of_cache h.wellKept.cleanupTurn LinkCache.cleanupTurn_settings.1
        (LinkCache.forall_cleanupTurn h.entries)

/-- Nothing is cached and nobody asks. -/
def fresh (defaultTtl : ℚ) (maxSize : ℤ) : LinkSystem := { cache := { defaultTtl, maxSize } }

theorem fresh_sound : (fresh defaultTtl maxSize).Sound := by
  refine ⟨LinkCache.WellKept.clear { defaultTtl, maxSize }, ?_, ?_, ?_⟩
  · intro entry hentry
    cases hentry
  · intro link hlink
    cases hlink
  · intro call hcall
    cases hcall

theorem run_sound (hrun : PartialRun.exec step (fresh defaultTtl maxSize) events = some s) : s.Sound :=
  PartialRun.invariant_of_step (I := Sound) (fun _ _ _ h hstep => h.step hstep) fresh_sound hrun

theorem step_settings (hstep : s.step e = some s') :
    s'.cache.defaultTtl = s.cache.defaultTtl ∧ s'.cache.maxSize = s.cache.maxSize := by
  cases e with
  | resolve | redirect | delete | clear =>
      cases hstep
      exact ⟨rfl, rfl⟩
  | check i checkedAt touchedAt =>
      rw [LinkSystem.step, Option.bind_eq_some_iff] at hstep
      obtain ⟨call, hcall, hstep⟩ := hstep
      split_ifs at hstep with hstage
      cases hstep
      exact LinkCache.get_settings checkedAt touchedAt call.fileId
  | answer i answer =>
      rw [LinkSystem.step, Option.bind_eq_some_iff] at hstep
      obtain ⟨call, hcall, hstep⟩ := hstep
      rw [LinkSystem.answer, Option.map_eq_some_iff] at hstep
      obtain ⟨moved, -, rfl⟩ := hstep
      exact ⟨rfl, rfl⟩
  | store i checked created headers =>
      rw [LinkSystem.step, Option.bind_eq_some_iff] at hstep
      obtain ⟨call, hcall, hstep⟩ := hstep
      rw [LinkSystem.store] at hstep
      cases hstage : call.stage with
      | storing url =>
          rw [hstage] at hstep
          cases hstep
          by_cases hredirects : call.redirects = true
          · rw [if_pos hredirects]
            exact LinkCache.set_settings _ _ _ _ _
          · rw [if_neg hredirects]
            exact LinkCache.set_settings _ _ _ _ _
      | checking | quark | alist _ | returned _ _ | raised _ =>
          rw [hstage] at hstep
          cases hstep
  | cleanup checked =>
      cases hstep
      exact LinkCache.cleanupTurn_settings

theorem run_settings (hrun : PartialRun.exec step (fresh defaultTtl maxSize) events = some s) :
    s.cache.defaultTtl = defaultTtl ∧ s.cache.maxSize = maxSize := by
  refine PartialRun.invariant_of_step (I := fun s => s.cache.defaultTtl = defaultTtl ∧
    s.cache.maxSize = maxSize) ?_ ⟨rfl, rfl⟩ hrun
  rintro s e s' ⟨httl, hmax⟩ hstep
  obtain ⟨httl', hmax'⟩ := step_settings hstep
  exact ⟨httl'.trans httl, hmax'.trans hmax⟩

/-- However the calls interleave, the cache holds at most `max_size` links, at most one for a file,
and what it would evict was accessed no later than what it would keep. -/
theorem link_cache_well_kept (hrun : PartialRun.exec step (fresh defaultTtl maxSize) events = some s) :
    (s.cache.entries.length : ℤ) ≤ max 1 maxSize ∧ (s.cache.entries.map (·.key)).Nodup ∧
      ∀ kept ∈ s.cache.evictOldest.entries, ∀ gone ∈ s.cache.entries,
        gone ∉ s.cache.evictOldest.entries → gone.lastAccessedAt ≤ kept.lastAccessedAt := by
  have hkept := (run_sound hrun).wellKept
  have hbounded := hkept.bounded
  rw [(run_settings hrun).2] at hbounded
  exact ⟨hbounded, hkept.nodup, fun kept hin gone hgone hout => hkept.evicted_le hin hgone hout⟩

end Runs

/-- Two calls ask for one file; Quark fails for the first, which asks AList. -/
def twoCalls : List LinkEvent :=
  [.resolve "file" true true, .resolve "file" true false, .check 0 0 0, .answer 0 (.raised "timeout"),
    .answer 0 (.link "alist-link"), .store 0 (fun _ => 1) 1 [], .check 1 5 5]

/-- The second call finds what the first has stored. -/
def twoResolved : LinkSystem where
  cache := {
    entries := [{
      key := "file", value := "alist-link", ttl := 600, createdAt := 1, expiresAt := 601
      accessCount := 1, lastAccessedAt := 5 }] }
  calls := [
    { fileId := "file", redirects := false, quarkService := true, alist := true
      stage := .returned "alist-link" none, errors := ["timeout"] },
    { fileId := "file", redirects := false, quarkService := true, alist := false
      stage := .returned "alist-link" (some 5) }]
  provided := [("file", "alist-link")]
  stored := [("file", "alist-link", 1)]

theorem twoCalls_run : PartialRun.exec step (fresh 600 1000) twoCalls = some twoResolved := by
  decide +kernel

theorem twoCalls_well_kept : (twoResolved.cache.entries.length : ℤ) ≤ max 1 1000 :=
  (link_cache_well_kept twoCalls_run).1

end LinkSystem

end SmartMedia.Playback
