import Mozkey.Lib.Runs
import Mozkey.Prediction.UserHistoryStorage

/-! `UserHistoryStorage` under two threads: the one that calls it, and the one of `task_manager_`,
which loads and saves.  The mutex is recursive, so that the caller may hold several snapshots. -/

namespace Mozkey.Prediction

open Storage Base Lib

/-- The calls that change an entry or let the caller change it. -/
inductive Update where
  | insertKey (fp : UInt64) (stale : Entry)
  | insert (entry : Entry)
  | mutableLookup (fp : UInt64)
  | erase (fps : List UInt64)

/-- `Save` at its test of `needs_sync_`, at its copy, at its write, and where it clears the flag. -/
inductive Saving where
  | test
  | copy
  | write (entries : List Entry)
  | clear

inductive Loading where
  | read
  | enter (entries : List Entry)
  | insert (rest : List Entry)

inductive Task where
  | save (pc : Saving)
  | load (pc : Loading)

/-- What the caller is in: an update that has the lock and has set the flag, the `Save` of `Clear` or
of the destructor, or the `Wait` of the destructor. -/
inductive Call where
  | update (update : Update)
  | save (pc : Saving)
  | wait

/-- A lock that the caller holds stands in `held`, with the entry that its snapshot points to. -/
structure Sync where
  dic : Dic
  needsSync : Bool
  canceled : Bool
  file : Option (List Entry)
  call : Option Call
  held : List (Option UInt64)
  task : Option Task
  closing : Bool

/-- `destroy` is the first part of the destructor and `wait` the return of its `Wait`; a read or a
write of the file succeeds if its event says so. -/
inductive SyncEvent where
  | enter (update : Update)
  | change
  | write (snapshot : Nat) (entry : Entry)
  | release (snapshot : Nat)
  | asyncSave
  | asyncLoad
  | clear
  | destroy
  | wait
  | save (success : Bool)
  | task (success : Bool)

/-- `Erase` returns at once when there is nothing to erase. -/
def Update.locks : Update → Bool
  | .erase fps => !fps.isEmpty
  | _ => true

def Saving.isCopy : Saving → Bool
  | .copy => true
  | _ => false

/-- A `Save` that has copied entries and not yet cleared the flag. -/
def Saving.pending : Saving → Bool
  | .write (_ :: _) => true
  | .clear => true
  | _ => false

def Loading.isEnter : Loading → Bool
  | .enter _ => true
  | _ => false

namespace Sync

section steps

variable (cityFingerprint : Bytes → UInt64) (legacyFingerprint32 : Bytes → UInt32)

/-- The state once the constructor has started its `AsyncLoad`. -/
def init (file : Option (List Entry)) : Sync where
  dic := []
  needsSync := false
  canceled := false
  file := file
  call := none
  held := []
  task := some (.load .read)
  closing := false

def change (dic : Dic) : Update → Dic
  | .insertKey fp stale => dic.insertKey fp stale
  | .insert entry => RecencyList.insert dic kLruCacheSize (entry.fp cityFingerprint) entry
  | .mutableLookup _ => dic
  | .erase fps => fps.foldl RecencyList.erase dic

def snapshot (dic : Dic) : Update → List (Option UInt64)
  | .insertKey fp _ => [some fp]
  | .insert _ => []
  | .mutableLookup fp => [if (RecencyList.lookup dic fp).isSome then some fp else none]
  | .erase _ => []

def callerLocks (s : Sync) : Bool :=
  !s.held.isEmpty || match s.call with
    | some (.update _) => true
    | _ => false

def taskLocks (s : Sync) : Bool :=
  match s.task with
  | some (.load (.insert _)) => true
  | _ => false

def saveStep (success : Bool) (s : Sync) : Saving → Option Saving × Sync
  | .test => if s.needsSync then (some .copy, s) else (none, s)
  | .copy => (some (.write s.dic.saved), s)
  | .write [] => (none, { s with file := none })
  | .write entries => if success then (some .clear, { s with file := some entries }) else (none, s)
  | .clear => (none, { s with needsSync := false })

def loadStep (success : Bool) (s : Sync) : Loading → Option Loading × Sync
  | .read =>
    match s.file with
    | none => (none, s)
    | some entries =>
      if success then
        (some (.enter (migrateNextEntries cityFingerprint legacyFingerprint32 entries)), s)
      else (none, s)
  | .enter entries => (some (.insert entries), { s with dic := [], needsSync := false })
  | .insert [] => (none, s)
  | .insert (entry :: rest) =>
    if s.canceled then (none, s)
    else (some (.insert rest), { s with dic := loadEntry cityFingerprint s.dic entry })

def step (s : Sync) : SyncEvent → Option Sync
  | .enter update =>
    if s.call.isNone ∧ ¬ s.closing ∧ ¬ s.taskLocks ∧ update.locks then
      some { s with needsSync := true, call := some (.update update) }
    else none
  | .change =>
    match s.call with
    | some (.update update) =>
      some { s with
        dic := change cityFingerprint s.dic update
        call := none
        held := snapshot s.dic update ++ s.held }
    | _ => none
  | .write i entry =>
    match s.call, s.held[i]? with
    | none, some (some fp) => some { s with dic := s.dic.modify fp fun _ => entry }
    | _, _ => none
  | .release i =>
    if s.call.isNone ∧ i < s.held.length then some { s with held := s.held.eraseIdx i } else none
  | .asyncSave =>
    if s.call.isNone ∧ ¬ s.closing then
      some (if s.needsSync ∧ s.task.isNone then { s with task := some (.save .test) } else s)
    else none
  | .asyncLoad =>
    if s.call.isNone ∧ ¬ s.closing then
      some (if s.task.isNone then { s with task := some (.load .read) } else s)
    else none
  | .clear =>
    if s.call.isNone ∧ ¬ s.closing ∧ ¬ s.taskLocks then
      some { s with
        dic := []
        needsSync := true
        call := some (.save .test)
        held := none :: s.held }
    else none
  | .destroy =>
    if s.call.isNone ∧ ¬ s.closing ∧ s.held = [] then
      some (if s.task.isSome then { s with closing := true, canceled := true, call := some .wait }
        else { s with closing := true, call := some (.save .test) })
    else none
  | .wait =>
    match s.call, s.task with
    | some .wait, none => some { s with call := some (.save .test) }
    | _, _ => none
  | .save success =>
    match s.call with
    | some (.save pc) =>
      if pc.isCopy ∧ s.taskLocks then none
      else
        match saveStep success s pc with
        | (some next, s') => some { s' with call := some (.save next) }
        | (none, s') => some { s' with call := none, held := s'.held.tail }
    | _ => none
  | .task success =>
    match s.task with
    | some (.save pc) =>
      if pc.isCopy ∧ s.callerLocks then none
      else
        let (next, s') := saveStep success s pc
        some { s' with task := next.map .save }
    | some (.load pc) =>
      if pc.isEnter ∧ s.callerLocks then none
      else
        let (next, s') := loadStep cityFingerprint legacyFingerprint32 success s pc
        some { s' with task := next.map .load }
    | none => none

end steps

def taskPending (s : Sync) : Bool :=
  match s.task with
  | some (.save pc) => pc.pending
  | _ => false

/-- A `Load` that has read the file and not yet begun its loop. -/
def taskEntering (s : Sync) : Bool :=
  match s.task with
  | some (.load (.enter _)) => true
  | _ => false

def taskReading (s : Sync) : Bool :=
  match s.task with
  | some (.load .read) => true
  | _ => false

def callSaving (s : Sync) : Bool :=
  match s.call with
  | some (.save _) => true
  | _ => false

def taskSaving (s : Sync) : Bool :=
  match s.task with
  | some (.save _) => true
  | _ => false

/-- No update and no `Clear` begins between the copy of a `Save` of the task and the step that clears
the flag, and no `Save` of `Clear` runs between the read of a `Load` and its loop. -/
def Undisturbed (s : Sync) : SyncEvent → Prop
  | .enter _ => s.taskPending = false
  | .clear => s.taskPending = false ∧ s.taskEntering = false
  | .task _ => s.taskReading = true → s.callSaving = false
  | _ => True

instance (s : Sync) (event : SyncEvent) : Decidable (s.Undisturbed event) :=
  match event with
  | .enter _ => inferInstanceAs (Decidable (_ = _))
  | .clear => inferInstanceAs (Decidable (_ ∧ _))
  | .task _ => inferInstanceAs (Decidable (_ → _))
  | .change | .write _ _ | .release _ | .asyncSave | .asyncLoad | .destroy | .wait | .save _ =>
    inferInstanceAs (Decidable True)

/-- With the flag clear and no `Save` running, the file has the entries. -/
def Synced (cityFingerprint : Bytes → UInt64) (legacyFingerprint32 : Bytes → UInt32) (s : Sync) :
    Prop :=
  s.needsSync = false → s.callSaving = false → s.taskSaving = false →
    Contains cityFingerprint legacyFingerprint32 (s.file.getD []) s.dic

section invariant

variable {cityFingerprint : Bytes → UInt64} {legacyFingerprint32 : Bytes → UInt32}
  {s s' : Sync} {success : Bool}

def SaveInv (s : Sync) : Saving → Prop
  | .test => True
  | .copy | .write [] => s.needsSync = true
  | .write entries => s.needsSync = true ∧ entries = s.dic.saved
  | .clear => s.needsSync = true ∧ s.file = some s.dic.saved

variable (cityFingerprint legacyFingerprint32) in
def LoadInv (s : Sync) : Loading → Prop
  | .read => True
  | .enter entries =>
    entries = migrateNextEntries cityFingerprint legacyFingerprint32 (s.file.getD [])
  | .insert rest => s.needsSync = false ∧ ∃ done,
    migrateNextEntries cityFingerprint legacyFingerprint32 (s.file.getD []) = done ++ rest ∧
      s.dic.values.reverse.Sublist (done.filterMap loadedEntry)

variable (cityFingerprint legacyFingerprint32) in
def TaskInv (s : Sync) : Option Task → Prop
  | none => True
  | some (.save pc) => SaveInv s pc
  | some (.load pc) => LoadInv cityFingerprint legacyFingerprint32 s pc

/-- `Clear` has the lock while it saves; the destructor saves when the task has ended. -/
def CallInv (s : Sync) : Option Call → Prop
  | some .wait => s.held = []
  | some (.save pc) => SaveInv s pc ∧
    (s.held ≠ [] ∧ s.dic = [] ∧ pc.pending = false ∧
      (∀ entries, s.task ≠ some (.load (.enter entries))) ∨ s.held = [] ∧ s.task = none)
  | _ => True

variable (cityFingerprint legacyFingerprint32) in
structure Inv (s : Sync) : Prop where
  size : s.dic.length ≤ kLruCacheSize
  synced : s.needsSync = false →
    Contains cityFingerprint legacyFingerprint32 (s.file.getD []) s.dic
  locked : s.callerLocks = true →
    s.needsSync = true ∧ s.taskPending = false ∧ s.taskLocks = false
  task : TaskInv cityFingerprint legacyFingerprint32 s s.task
  call : CallInv s s.call
  exclusive : s.taskLocks = true → ∀ pc, s.call ≠ some (.save pc)

theorem length_insert {dic : Dic} (h : dic.length ≤ kLruCacheSize) (fp : UInt64) (entry : Entry) :
    (RecencyList.insert dic kLruCacheSize fp entry).length ≤ kLruCacheSize := by
  have herase : (RecencyList.erase dic fp).length ≤ dic.length := List.length_filter_le _ _
  have hpos : 0 < kLruCacheSize := by decide
  rw [RecencyList.insert, List.length_cons]
  split
  · assumption
  · rw [List.length_dropLast]
    omega

theorem length_change {dic : Dic} (h : dic.length ≤ kLruCacheSize) (update : Update) :
    (change cityFingerprint dic update).length ≤ kLruCacheSize := by
  cases update with
  | insertKey fp stale => exact length_insert h _ _
  | insert entry => exact length_insert h _ _
  | mutableLookup fp => exact h
  | erase fps =>
    rw [change]
    induction fps generalizing dic with
    | nil => exact h
    | cons fp fps ih => exact ih ((List.length_filter_le _ _).trans h)

theorem length_loadEntry {dic : Dic} (h : dic.length ≤ kLruCacheSize) (entry : Entry) :
    (loadEntry cityFingerprint dic entry).length ≤ kLruCacheSize := by
  rw [loadEntry]
  split
  · exact h
  · exact length_insert h _ _

theorem saved_eq {dic : Dic} (h : dic.length ≤ kLruCacheSize) : dic.saved = dic.values.reverse := by
  rw [Dic.saved, List.take_of_length_le]
  rwa [Dic.values, List.length_map]

theorem SaveInv.of_not_pending {pc : Saving} (h : pc.pending = false) (hflag : s.needsSync = true) :
    SaveInv s pc := by
  match pc, h with
  | .test, _ => trivial
  | .copy, _ => exact hflag
  | .write [], _ => exact hflag

theorem SaveInv.congr {pc : Saving} (h : SaveInv s pc) (hdic : s'.dic = s.dic)
    (hfile : s'.file = s.file) (hflag : s.needsSync = true → s'.needsSync = true) :
    SaveInv s' pc := by
  match pc, h with
  | .test, _ => trivial
  | .copy, h => exact hflag h
  | .write [], h => exact hflag h
  | .write (_ :: _), h => exact ⟨hflag h.1, hdic ▸ h.2⟩
  | .clear, h => exact ⟨hflag h.1, by rw [hfile, hdic, h.2]⟩

theorem saveStep_frame (pc : Saving) : (saveStep success s pc).2.dic = s.dic ∧
    (saveStep success s pc).2.canceled = s.canceled ∧ (saveStep success s pc).2.call = s.call ∧
    (saveStep success s pc).2.held = s.held ∧ (saveStep success s pc).2.task = s.task ∧
    (saveStep success s pc).2.closing = s.closing := by
  match pc with
  | .test | .write (_ :: _) =>
    dsimp only [saveStep]
    split <;> exact ⟨rfl, rfl, rfl, rfl, rfl, rfl⟩
  | .copy | .write [] | .clear => exact ⟨rfl, rfl, rfl, rfl, rfl, rfl⟩

theorem saveStep_synced {pc : Saving} (hsize : s.dic.length ≤ kLruCacheSize)
    (hsynced : s.needsSync = false →
      Contains cityFingerprint legacyFingerprint32 (s.file.getD []) s.dic)
    (h : SaveInv s pc) (hflag : (saveStep success s pc).2.needsSync = false) :
    Contains cityFingerprint legacyFingerprint32 ((saveStep success s pc).2.file.getD [])
      (saveStep success s pc).2.dic := by
  match pc, h with
  | .test, _ =>
    dsimp only [saveStep] at hflag ⊢
    split at hflag <;> rename_i hset <;> simp only [hset, if_true, Bool.false_eq_true, if_false]
    · exact absurd hset (by simpa using hflag)
    · exact hsynced hflag
  | .copy, _ => exact hsynced hflag
  | .write [], h => exact absurd (h.symm.trans hflag) (by decide)
  | .write (_ :: _), h =>
    dsimp only [saveStep] at hflag
    split at hflag <;> exact absurd (h.1.symm.trans hflag) (by decide)
  | .clear, h =>
    refine .inl ?_
    show s.dic.values.reverse = s.file.getD []
    rw [h.2, ← saved_eq hsize]
    rfl

theorem saveStep_saveInv {pc next : Saving} (h : SaveInv s pc)
    (hnext : (saveStep success s pc).1 = some next) : SaveInv (saveStep success s pc).2 next := by
  match pc, h with
  | .test, _ =>
    dsimp only [saveStep] at hnext ⊢
    split at hnext <;> rename_i hset <;> cases hnext
    rw [if_pos hset]
    exact hset
  | .copy, h =>
    cases hnext
    dsimp only [saveStep]
    cases hsaved : s.dic.saved with
    | nil => exact h
    | cons => exact ⟨h, hsaved.symm⟩
  | .write [], _ => cases hnext
  | .write (_ :: _), h =>
    dsimp only [saveStep] at hnext ⊢
    split at hnext <;> rename_i hsuccess <;> cases hnext
    rw [if_pos hsuccess]
    exact ⟨h.1, congrArg some h.2⟩
  | .clear, _ => cases hnext

theorem saveStep_not_pending {pc : Saving} (h : pc.pending = false)
    (hcopy : pc.isCopy = false ∨ s.dic = []) :
    (saveStep success s pc).2.needsSync = s.needsSync ∧
      ∀ next, (saveStep success s pc).1 = some next → next.pending = false := by
  match pc, h with
  | .test, _ =>
    dsimp only [saveStep]
    split
    · exact ⟨rfl, fun next hnext => Option.some.inj hnext ▸ rfl⟩
    · exact ⟨rfl, fun next hnext => nomatch hnext⟩
  | .copy, _ =>
    obtain hempty : s.dic = [] := hcopy.resolve_left (by decide)
    refine ⟨rfl, fun next hnext => ?_⟩
    rw [← Option.some.inj hnext, hempty]
    rfl
  | .write [], _ => exact ⟨rfl, fun next hnext => nomatch hnext⟩

theorem TaskInv.of_locked (hflag : s.needsSync = true) (hpending : s.taskPending = false)
    (hlocks : s.taskLocks = false) (henter : ∀ entries, s.task = some (.load (.enter entries)) →
      entries = migrateNextEntries cityFingerprint legacyFingerprint32 (s.file.getD [])) :
    TaskInv cityFingerprint legacyFingerprint32 s s.task := by
  rcases htask : s.task with _ | pc | pc
  · trivial
  · rw [taskPending, htask] at hpending
    exact SaveInv.of_not_pending hpending hflag
  · cases pc with
    | read => trivial
    | enter entries => exact henter entries htask
    | insert rest =>
      rw [taskLocks, htask] at hlocks
      cases hlocks

theorem Inv.load_enter (h : Inv cityFingerprint legacyFingerprint32 s) {entries : List Entry}
    (htask : s.task = some (.load (.enter entries))) :
    entries = migrateNextEntries cityFingerprint legacyFingerprint32 (s.file.getD []) := by
  have := h.task
  rwa [htask] at this

theorem callerLocks_of_update {update : Update} (h : s.call = some (.update update)) :
    s.callerLocks = true := by
  rw [callerLocks, h]
  exact Bool.or_true _

theorem callerLocks_of_held (h : s.held ≠ []) : s.callerLocks = true := by
  rw [callerLocks, List.isEmpty_eq_false_iff.mpr h]
  rfl

theorem inv_init (file : Option (List Entry)) :
    Inv cityFingerprint legacyFingerprint32 (init file) where
  size := Nat.zero_le _
  synced _ := .inr (List.nil_sublist _)
  locked h := nomatch h
  task := trivial
  call := trivial
  exclusive h := nomatch h

theorem Inv.enter (h : Inv cityFingerprint legacyFingerprint32 s) {update : Update}
    (hlocks : s.taskLocks = false) (hpending : s.taskPending = false) :
    Inv cityFingerprint legacyFingerprint32
      { s with needsSync := true, call := some (.update update) } where
  size := h.size
  synced hflag := nomatch hflag
  locked _ := ⟨rfl, hpending, hlocks⟩
  task := TaskInv.of_locked rfl hpending hlocks fun _ htask => h.load_enter htask
  call := trivial
  exclusive _ _ := nofun

theorem inv_clear (hlocks : s.taskLocks = false) (hpending : s.taskPending = false)
    (henter : ∀ entries, s.task ≠ some (.load (.enter entries))) :
    Inv cityFingerprint legacyFingerprint32
      { s with dic := [], needsSync := true, call := some (.save .test), held := none :: s.held } where
  size := Nat.zero_le _
  synced hflag := nomatch hflag
  locked _ := ⟨rfl, hpending, hlocks⟩
  task := TaskInv.of_locked rfl hpending hlocks fun entries htask => absurd htask (henter entries)
  call := ⟨trivial, .inl ⟨nofun, rfl, rfl, henter⟩⟩
  exclusive htask := absurd (hlocks.symm.trans htask) nofun

theorem Inv.of_locked (h : Inv cityFingerprint legacyFingerprint32 s) (hlock : s.callerLocks = true)
    {dic : Dic} (hsize : dic.length ≤ kLruCacheSize) (held : List (Option UInt64)) :
    Inv cityFingerprint legacyFingerprint32 { s with dic, call := none, held } := by
  obtain ⟨hflag, hpending, hlocks⟩ := h.locked hlock
  exact {
    size := hsize
    synced := fun hclear => Bool.noConfusion (hflag.symm.trans hclear)
    locked := fun _ => ⟨hflag, hpending, hlocks⟩
    task := TaskInv.of_locked hflag hpending hlocks fun _ htask => h.load_enter htask
    call := trivial
    exclusive := fun _ _ => (Option.some_ne_none _).symm }

theorem Inv.schedule (h : Inv cityFingerprint legacyFingerprint32 s) {task : Task}
    (hcall : s.call = none) (htask : task = .save .test ∨ task = .load .read) :
    Inv cityFingerprint legacyFingerprint32 { s with task := some task } where
  size := h.size
  synced := h.synced
  locked hlock := by
    refine ⟨(h.locked hlock).1, ?_⟩
    rcases htask with rfl | rfl <;> exact ⟨rfl, rfl⟩
  task := by rcases htask with rfl | rfl <;> trivial
  call := by
    show CallInv _ s.call
    rw [hcall]
    trivial
  exclusive hlocks := by rcases htask with rfl | rfl <;> cases hlocks

theorem Inv.destroy (h : Inv cityFingerprint legacyFingerprint32 s) (hheld : s.held = [])
    {closing canceled : Bool} {call : Call} (hcall : call = .wait ∨ s.task = none ∧ call = .save .test) :
    Inv cityFingerprint legacyFingerprint32
      { s with closing, canceled, call := some call } := by
  have hfree : ({ s with closing, canceled, call := some call } : Sync).callerLocks = false := by
    rw [callerLocks, hheld]
    rcases hcall with rfl | ⟨-, rfl⟩ <;> rfl
  refine { size := h.size, synced := h.synced, locked := ?_, task := ?_, call := ?_, exclusive := ?_ }
  · exact fun hlock => absurd (hfree.symm.trans hlock) nofun
  · show TaskInv _ _ _ s.task
    have := h.task
    rcases htask : s.task with _ | pc | pc
    · trivial
    · rw [htask] at this
      exact SaveInv.congr this rfl rfl id
    · rw [htask] at this
      cases pc <;> exact this
  · rcases hcall with rfl | ⟨htask, rfl⟩
    · exact hheld
    · exact ⟨trivial, .inr ⟨hheld, htask⟩⟩
  · intro hlocks pc hsave
    rcases hcall with rfl | ⟨htask, rfl⟩
    · cases hsave
    · have : s.taskLocks = true := hlocks
      rw [taskLocks, htask] at this
      cases this

theorem taskLocks_congr (h : s'.task = s.task) : s'.taskLocks = s.taskLocks := by
  rw [taskLocks, taskLocks, h]

theorem taskPending_congr (h : s'.task = s.task) : s'.taskPending = s.taskPending := by
  rw [taskPending, taskPending, h]

theorem Inv.save_locked (h : Inv cityFingerprint legacyFingerprint32 s) {pc : Saving}
    {next : Option Saving} {s₁ : Sync} {held : List (Option UInt64)}
    (hstep : saveStep success s pc = (next, s₁)) (hinv : SaveInv s pc) (hlock : s.held ≠ [])
    (hempty : s.dic = []) (hpending : pc.pending = false)
    (henter : ∀ entries, s.task ≠ some (.load (.enter entries)))
    (hheld : next ≠ none → held = s.held) :
    Inv cityFingerprint legacyFingerprint32 { s₁ with call := next.map .save, held } := by
  have hframe := @saveStep_frame s success pc
  have hflag := @saveStep_not_pending s success _ hpending (.inr hempty)
  have hnext := @saveStep_saveInv s success pc
  rw [hstep] at hframe hflag hnext
  obtain ⟨hdic, -, -, -, htask, -⟩ := hframe
  obtain ⟨hset, htaskPending, htaskLocks⟩ := h.locked (callerLocks_of_held hlock)
  have hset' : s₁.needsSync = true := hflag.1.trans hset
  have htaskPending' : s₁.taskPending = false := (taskPending_congr htask).trans htaskPending
  have htaskLocks' : s₁.taskLocks = false := (taskLocks_congr htask).trans htaskLocks
  refine {
    size := hdic ▸ h.size
    synced := fun hclear => Bool.noConfusion (hset'.symm.trans hclear)
    locked := fun _ => ⟨hset', htaskPending', htaskLocks'⟩
    task := TaskInv.of_locked hset' htaskPending' htaskLocks' fun entries hload =>
      absurd (htask ▸ hload) (henter entries)
    call := ?_
    exclusive := fun hlocks => Bool.noConfusion (htaskLocks'.symm.trans hlocks) }
  cases next with
  | none => trivial
  | some next =>
    refine ⟨(hnext hinv rfl).congr rfl rfl id, .inl ⟨?_, hdic.trans hempty, hflag.2 next rfl, ?_⟩⟩
    · exact hheld (Option.some_ne_none _) ▸ hlock
    · exact fun entries hload => henter entries (htask ▸ hload)

theorem Inv.save_alone (h : Inv cityFingerprint legacyFingerprint32 s) {pc : Saving}
    {next : Option Saving} {s₁ : Sync} (hstep : saveStep success s pc = (next, s₁))
    (hinv : SaveInv s pc) (hnone : s.task = none) :
    Inv cityFingerprint legacyFingerprint32 { s₁ with call := next.map .save, held := [] } := by
  have hframe := @saveStep_frame s success pc
  have hsynced := @saveStep_synced cityFingerprint legacyFingerprint32 s success pc h.size h.synced hinv
  have hnext := @saveStep_saveInv s success pc
  rw [hstep] at hframe hsynced hnext
  obtain ⟨hdic, -, -, -, htask, -⟩ := hframe
  have hnone' : s₁.task = none := htask.trans hnone
  refine {
    size := hdic ▸ h.size
    synced := hsynced
    locked := fun hlock => by cases next <;> cases hlock
    task := ?_
    call := ?_
    exclusive := fun hlocks => ?_ }
  · show TaskInv _ _ _ s₁.task
    rw [hnone']
    trivial
  · cases next with
    | none => trivial
    | some next => exact ⟨(hnext hinv rfl).congr rfl rfl id, .inr ⟨rfl, hnone'⟩⟩
  · have hfree : s₁.taskLocks = false := by rw [taskLocks, hnone']
    exact absurd (hfree.symm.trans hlocks) nofun

theorem Inv.save (h : Inv cityFingerprint legacyFingerprint32 s) {pc : Saving}
    {next : Option Saving} {s₁ : Sync} {held : List (Option UInt64)}
    (hcall : s.call = some (.save pc)) (hstep : saveStep success s pc = (next, s₁))
    (hheld : next ≠ none → held = s.held) (hfree : s.held = [] → held = []) :
    Inv cityFingerprint legacyFingerprint32 { s₁ with call := next.map .save, held } := by
  have hinv := h.call
  rw [hcall] at hinv
  obtain ⟨hinv, ⟨hlock, hempty, hpending, henter⟩ | ⟨hnil, hnone⟩⟩ := hinv
  · exact h.save_locked hstep hinv hlock hempty hpending henter hheld
  · obtain rfl := hfree hnil
    exact h.save_alone hstep hinv hnone

theorem Inv.task_save (h : Inv cityFingerprint legacyFingerprint32 s) {pc : Saving}
    {next : Option Saving} {s₁ : Sync} (htask : s.task = some (.save pc))
    (hcopy : pc.isCopy = true → s.callerLocks = false) (hstep : saveStep success s pc = (next, s₁)) :
    Inv cityFingerprint legacyFingerprint32 { s₁ with task := next.map .save } := by
  have hinv := h.task
  rw [htask] at hinv
  have hframe := @saveStep_frame s success pc
  have hsynced := @saveStep_synced cityFingerprint legacyFingerprint32 s success pc h.size h.synced hinv
  have hnext := @saveStep_saveInv s success pc
  have hflag := @saveStep_not_pending s success pc
  rw [hstep] at hframe hsynced hnext hflag
  obtain ⟨hdic, -, hcall, hheld, -, -⟩ := hframe
  have hlock : s.callerLocks = true →
      s₁.needsSync = true ∧ ∀ pc', next = some pc' → pc'.pending = false := by
    intro hlock
    obtain ⟨hset, hpending, -⟩ := h.locked hlock
    rw [taskPending, htask] at hpending
    have hnotCopy : pc.isCopy = false := by
      by_contra hc
      exact absurd ((hcopy (by simpa using hc)).symm.trans hlock) nofun
    obtain ⟨hkeep, hall⟩ := hflag hpending (.inl hnotCopy)
    exact ⟨hkeep.trans hset, hall⟩
  refine { size := hdic ▸ h.size, synced := hsynced, locked := ?_, task := ?_, call := ?_,
           exclusive := ?_ }
  · intro hlocked
    have hlocked' : s.callerLocks = true := by
      rw [callerLocks, ← hcall, ← hheld]
      exact hlocked
    obtain ⟨hset, hall⟩ := hlock hlocked'
    refine ⟨hset, ?_, ?_⟩ <;> cases next with
    | none => rfl
    | some pc' => first | exact hall pc' rfl | rfl
  · cases next with
    | none => trivial
    | some pc' => exact (hnext hinv rfl).congr rfl rfl id
  · show CallInv _ s₁.call
    have hcallInv := h.call
    rw [hcall]
    rcases hc : s.call with _ | update | pc' | _
    · trivial
    · trivial
    · rw [hc] at hcallInv
      obtain ⟨-, ⟨hne, hempty, hpending, -⟩ | ⟨-, hnone⟩⟩ := hcallInv
      · refine ⟨SaveInv.of_not_pending hpending (hlock (callerLocks_of_held hne)).1,
          .inl ⟨hheld ▸ hne, hdic.trans hempty, hpending, fun entries hload => ?_⟩⟩
        cases next <;> cases hload
      · exact absurd (htask.symm.trans hnone) nofun
    · rw [hc] at hcallInv
      exact hheld.trans hcallInv
  · intro hlocks
    cases next <;> cases hlocks

theorem Inv.reschedule (h : Inv cityFingerprint legacyFingerprint32 s) {task : Option Task}
    (hpending : ({ s with task } : Sync).taskPending = false)
    (hlocks : ({ s with task } : Sync).taskLocks = false)
    (htask : TaskInv cityFingerprint legacyFingerprint32 s task)
    (hcall : (∃ entries, task = some (.load (.enter entries))) → ∀ pc, s.call ≠ some (.save pc))
    (hsome : task ≠ none → s.task ≠ none) :
    Inv cityFingerprint legacyFingerprint32 { s with task } where
  size := h.size
  synced := h.synced
  locked hlock := ⟨(h.locked hlock).1, hpending, hlocks⟩
  task := by
    show TaskInv _ _ _ task
    rcases task with _ | pc | pc
    · trivial
    · exact SaveInv.congr htask rfl rfl id
    · cases pc <;> exact htask
  call := by
    show CallInv _ s.call
    have hinv := h.call
    rcases hc : s.call with _ | update | pc | _
    · trivial
    · trivial
    · rw [hc] at hinv
      refine ⟨hinv.1.congr rfl rfl id, hinv.2.imp ?_ ?_⟩
      · exact fun ⟨hne, hempty, hpc, _⟩ =>
          ⟨hne, hempty, hpc, fun entries hload => hcall ⟨entries, hload⟩ pc hc⟩
      · exact fun ⟨hnil, hnone⟩ => ⟨hnil, by_contra fun hne => hsome hne hnone⟩
    · rw [hc] at hinv
      exact hinv
  exclusive hlocks' := absurd (hlocks.symm.trans hlocks') nofun

theorem Inv.load_loop (h : Inv cityFingerprint legacyFingerprint32 s) {dic : Dic}
    {entries rest : List Entry} (hfree : s.callerLocks = false)
    (hcall : ∀ pc, s.call ≠ some (.save pc)) (hsize : dic.length ≤ kLruCacheSize)
    (hfile : migrateNextEntries cityFingerprint legacyFingerprint32 (s.file.getD []) = entries ++ rest)
    (hdic : dic.values.reverse.Sublist (entries.filterMap loadedEntry)) :
    Inv cityFingerprint legacyFingerprint32
      { s with dic, needsSync := false, task := some (.load (.insert rest)) } where
  size := hsize
  synced _ := by
    refine .inr ?_
    rw [hfile, List.filterMap_append]
    exact hdic.trans (List.sublist_append_left _ _)
  locked hlock := absurd (hfree.symm.trans hlock) nofun
  task := ⟨rfl, entries, hfile, hdic⟩
  call := by
    show CallInv _ s.call
    have hinv := h.call
    rcases hc : s.call with _ | update | pc | _
    · trivial
    · trivial
    · exact absurd hc (hcall pc)
    · rw [hc] at hinv
      exact hinv
  exclusive _ := hcall

theorem Inv.task_load (h : Inv cityFingerprint legacyFingerprint32 s) {pc : Loading}
    (htask : s.task = some (.load pc)) (henter : pc.isEnter = true → s.callerLocks = false)
    (hcall : s.task = some (.load .read) → ∀ pc, s.call ≠ some (.save pc)) :
    Inv cityFingerprint legacyFingerprint32
      { (loadStep cityFingerprint legacyFingerprint32 success s pc).2 with
        task := (loadStep cityFingerprint legacyFingerprint32 success s pc).1.map .load } := by
  have hinv := h.task
  rw [htask] at hinv
  have hdone : Inv cityFingerprint legacyFingerprint32 { s with task := none } :=
    h.reschedule rfl rfl trivial nofun fun hne => absurd rfl hne
  match pc, hinv with
  | .read, _ =>
    dsimp only [loadStep]
    split
    · exact hdone
    · rename_i entries hfile
      split
      · refine h.reschedule rfl rfl ?_ (fun _ => hcall htask) fun _ hnone => ?_
        · show _ = migrateNextEntries _ _ (s.file.getD [])
          rw [hfile]
          rfl
        · exact nomatch htask.symm.trans hnone
      · exact hdone
  | .enter entries, hentries =>
    have hfree : s.callerLocks = false := henter rfl
    have hfile : migrateNextEntries cityFingerprint legacyFingerprint32 (s.file.getD []) =
        [] ++ entries := hentries.symm
    refine h.load_loop hfree (fun pc hsave => ?_) (Nat.zero_le _) hfile (List.nil_sublist _)
    have hsaveInv := h.call
    rw [hsave] at hsaveInv
    rcases hsaveInv.2 with ⟨hne, -⟩ | ⟨-, hnone⟩
    · exact absurd (hfree.symm.trans (callerLocks_of_held hne)) nofun
    · exact nomatch htask.symm.trans hnone
  | .insert [], _ => exact hdone
  | .insert (entry :: rest), ⟨hflag, entries, hfile, hdic⟩ =>
    dsimp only [loadStep]
    split
    · exact hdone
    · have hlocks : s.taskLocks = true := by rw [taskLocks, htask]
      have hfree : s.callerLocks = false := by
        by_contra hlock
        exact absurd ((h.locked (by simpa using hlock)).2.2.symm.trans hlocks) nofun
      have hsize : (loadEntry cityFingerprint s.dic entry).length ≤ kLruCacheSize :=
        length_loadEntry h.size entry
      have hloop := h.load_loop hfree (h.exclusive hlocks) hsize
        (hfile.trans (List.append_cons entries entry rest)) (values_loadEntry_sublist hdic entry)
      rwa [← hflag] at hloop

theorem Inv.step (h : Inv cityFingerprint legacyFingerprint32 s) {event : SyncEvent}
    (hok : Undisturbed s event)
    (hstep : step cityFingerprint legacyFingerprint32 s event = some s') :
    Inv cityFingerprint legacyFingerprint32 s' := by
  cases event with
  | enter update =>
    rw [Sync.step] at hstep
    split at hstep <;> cases hstep
    rename_i hguard
    exact h.enter (by simpa using hguard.2.2.1) hok
  | change =>
    rw [Sync.step] at hstep
    split at hstep <;> cases hstep
    rename_i update hcall
    exact h.of_locked (callerLocks_of_update hcall) (length_change h.size update) _
  | write i entry =>
    rw [Sync.step] at hstep
    split at hstep <;> cases hstep
    rename_i fp hcall hheld
    have hlock : s.callerLocks = true := by
      refine callerLocks_of_held fun hnil => ?_
      rw [hnil] at hheld
      cases hheld
    have hsize : (s.dic.modify fp fun _ => entry).length ≤ kLruCacheSize := by
      rw [Dic.modify, List.length_map]
      exact h.size
    have := h.of_locked hlock hsize s.held
    rwa [← hcall] at this
  | release i =>
    rw [Sync.step] at hstep
    split at hstep <;> cases hstep
    rename_i hguard
    have hlock : s.callerLocks = true :=
      callerLocks_of_held (List.ne_nil_of_length_pos (Nat.zero_lt_of_lt hguard.2))
    have := h.of_locked hlock h.size (s.held.eraseIdx i)
    rwa [← Option.isNone_iff_eq_none.mp hguard.1] at this
  | asyncSave =>
    rw [Sync.step] at hstep
    split at hstep <;> cases hstep
    rename_i hguard
    split
    · exact h.schedule (Option.isNone_iff_eq_none.mp hguard.1) (.inl rfl)
    · exact h
  | asyncLoad =>
    rw [Sync.step] at hstep
    split at hstep <;> cases hstep
    rename_i hguard
    split
    · exact h.schedule (Option.isNone_iff_eq_none.mp hguard.1) (.inr rfl)
    · exact h
  | clear =>
    rw [Sync.step] at hstep
    split at hstep <;> cases hstep
    rename_i hguard
    refine inv_clear (by simpa using hguard.2.2) hok.1 fun entries htask => ?_
    have hentering := hok.2
    rw [taskEntering, htask] at hentering
    cases hentering
  | destroy =>
    rw [Sync.step] at hstep
    split at hstep <;> cases hstep
    rename_i hguard
    split
    · exact h.destroy hguard.2.2 (.inl rfl)
    · rename_i htask
      exact h.destroy hguard.2.2 (.inr ⟨Option.not_isSome_iff_eq_none.mp htask, rfl⟩)
  | wait =>
    rw [Sync.step] at hstep
    split at hstep <;> cases hstep
    rename_i hcall htask
    have hheld := h.call
    rw [hcall] at hheld
    exact h.destroy hheld (.inr ⟨htask, rfl⟩)
  | save success =>
    rw [Sync.step] at hstep
    split at hstep
    · rename_i pc hcall
      split at hstep
      · cases hstep
      split at hstep <;> cases hstep
      · rename_i next s₁ hsave
        have hheld := (@saveStep_frame s success pc).2.2.2.1
        rw [hsave] at hheld
        exact @Inv.save _ _ s success h pc _ s₁ s₁.held hcall hsave (fun _ => hheld)
          fun hnil => hheld.trans hnil
      · rename_i s₁ hsave
        have hheld := (@saveStep_frame s success pc).2.2.2.1
        rw [hsave] at hheld
        refine h.save hcall hsave (fun hne => absurd rfl hne) fun hnil => ?_
        show s₁.held.tail = []
        rw [hheld, hnil]
        rfl
    · cases hstep
  | task success =>
    rw [Sync.step] at hstep
    split at hstep
    · rename_i pc htask
      split at hstep <;> cases hstep
      rename_i hguard
      exact h.task_save htask (fun hcopy => by simpa [hcopy] using hguard) rfl
    · rename_i pc htask
      split at hstep <;> cases hstep
      rename_i hguard
      refine h.task_load htask (fun henter => by simpa [henter] using hguard) fun hread pc' hsave => ?_
      have hfree : s.callSaving = false := hok (by rw [taskReading, hread])
      rw [callSaving, hsave] at hfree
      cases hfree
    · cases hstep

/-- The destructor is the only one that cancels, and it waits for the task; the loop of `Load` has
the flag clear. -/
structure Canceling (s : Sync) : Prop where
  canceled : s.canceled = true →
    s.closing = true ∧ (s.task ≠ none → s.call = some .wait ∧ s.held = [])
  loading : s.taskLocks = true → s.needsSync = false

theorem canceling_init (file : Option (List Entry)) : Canceling (init file) :=
  ⟨nofun, nofun⟩

theorem saveStep_flag (pc : Saving) (h : s.needsSync = false) :
    (saveStep success s pc).2.needsSync = false := by
  match pc with
  | .test | .write (_ :: _) =>
    dsimp only [saveStep]
    split <;> exact h
  | .copy | .write [] => exact h
  | .clear => rfl

theorem taskLocks_save (s : Sync) (next : Option Saving) :
    ({ s with task := next.map .save } : Sync).taskLocks = false := by
  cases next <;> rfl

theorem Canceling.of_open (h : Canceling s) (hopen : ¬ s.closing = true)
    (hcanceled : s'.canceled = s.canceled)
    (hloading : s'.taskLocks = true → s'.needsSync = false) : Canceling s' := by
  refine ⟨fun hc => ?_, hloading⟩
  exact absurd (h.canceled (hcanceled ▸ hc)).1 hopen

theorem loadStep_loading (pc : Loading) (h : s.taskLocks = true → s.needsSync = false)
    (htask : s.task = some (.load pc)) :
    ({ (loadStep cityFingerprint legacyFingerprint32 success s pc).2 with
      task := (loadStep cityFingerprint legacyFingerprint32 success s pc).1.map .load } : Sync).taskLocks
        = true →
      (loadStep cityFingerprint legacyFingerprint32 success s pc).2.needsSync = false := by
  intro hlocks
  match pc with
  | .read =>
    dsimp only [loadStep] at hlocks
    split at hlocks
    · cases hlocks
    · split at hlocks <;> cases hlocks
  | .enter entries => rfl
  | .insert [] => cases hlocks
  | .insert (entry :: rest) =>
    have hflag : s.needsSync = false := h (by rw [taskLocks, htask])
    dsimp only [loadStep]
    split <;> exact hflag

theorem loadStep_frame (pc : Loading) :
    (loadStep cityFingerprint legacyFingerprint32 success s pc).2.canceled = s.canceled ∧
    (loadStep cityFingerprint legacyFingerprint32 success s pc).2.closing = s.closing ∧
    (loadStep cityFingerprint legacyFingerprint32 success s pc).2.call = s.call ∧
    (loadStep cityFingerprint legacyFingerprint32 success s pc).2.held = s.held := by
  match pc with
  | .read =>
    dsimp only [loadStep]
    split
    · exact ⟨rfl, rfl, rfl, rfl⟩
    · split <;> exact ⟨rfl, rfl, rfl, rfl⟩
  | .enter _ | .insert [] => exact ⟨rfl, rfl, rfl, rfl⟩
  | .insert (entry :: rest) =>
    dsimp only [loadStep]
    split <;> exact ⟨rfl, rfl, rfl, rfl⟩

theorem Canceling.step (h : Canceling s) {event : SyncEvent}
    (hstep : step cityFingerprint legacyFingerprint32 s event = some s') : Canceling s' := by
  cases event with
  | enter update =>
    rw [Sync.step] at hstep
    split at hstep <;> cases hstep
    rename_i hguard
    exact h.of_open hguard.2.1 rfl fun hlocks => absurd hlocks hguard.2.2.1
  | change =>
    rw [Sync.step] at hstep
    split at hstep <;> cases hstep
    rename_i update hcall
    refine ⟨fun hc => ⟨(h.canceled hc).1, fun htask => ?_⟩, h.loading⟩
    exact nomatch hcall.symm.trans ((h.canceled hc).2 htask).1
  | write i entry =>
    rw [Sync.step] at hstep
    split at hstep <;> cases hstep
    exact ⟨h.canceled, h.loading⟩
  | release i =>
    rw [Sync.step] at hstep
    split at hstep <;> cases hstep
    rename_i hguard
    refine ⟨fun hc => ⟨(h.canceled hc).1, fun htask => ?_⟩, h.loading⟩
    exact nomatch (Option.isNone_iff_eq_none.mp hguard.1).symm.trans ((h.canceled hc).2 htask).1
  | asyncSave =>
    rw [Sync.step] at hstep
    split at hstep <;> cases hstep
    rename_i hguard
    split
    · exact h.of_open hguard.2 rfl nofun
    · exact h
  | asyncLoad =>
    rw [Sync.step] at hstep
    split at hstep <;> cases hstep
    rename_i hguard
    split
    · exact h.of_open hguard.2 rfl nofun
    · exact h
  | clear =>
    rw [Sync.step] at hstep
    split at hstep <;> cases hstep
    rename_i hguard
    exact h.of_open hguard.2.1 rfl fun hlocks => absurd hlocks hguard.2.2
  | destroy =>
    rw [Sync.step] at hstep
    split at hstep <;> cases hstep
    rename_i hguard
    split
    · exact ⟨fun _ => ⟨rfl, fun _ => ⟨rfl, hguard.2.2⟩⟩, h.loading⟩
    · rename_i htask
      exact ⟨fun _ => ⟨rfl, fun hne => absurd (Option.not_isSome_iff_eq_none.mp htask) hne⟩, h.loading⟩
  | wait =>
    rw [Sync.step] at hstep
    split at hstep <;> cases hstep
    rename_i hcall htask
    exact ⟨fun hc => ⟨(h.canceled hc).1, fun hne => absurd htask hne⟩, h.loading⟩
  | save success =>
    rw [Sync.step] at hstep
    split at hstep
    · rename_i pc hcall
      split at hstep
      · cases hstep
      have hframe := @saveStep_frame s success pc
      have hflag := @saveStep_flag s success pc
      split at hstep <;> rename_i hsave <;> cases hstep <;> rw [hsave] at hframe hflag
      all_goals
        obtain ⟨-, hcanceled, -, -, htask, hclosing⟩ := hframe
        refine ⟨fun hc => ?_, fun hlocks => hflag (h.loading ((taskLocks_congr htask).symm.trans hlocks))⟩
        obtain ⟨hclosed, hwait⟩ := h.canceled (hcanceled.symm.trans hc)
        refine ⟨hclosing.trans hclosed, fun hne => ?_⟩
        exact nomatch hcall.symm.trans (hwait (htask ▸ hne)).1
    · cases hstep
  | task success =>
    rw [Sync.step] at hstep
    split at hstep
    · rename_i pc htask
      split at hstep <;> cases hstep
      obtain ⟨-, hcanceled, hcall, hheld, -, hclosing⟩ := @saveStep_frame s success pc
      refine ⟨fun hc => ?_, fun hlocks => ?_⟩
      · obtain ⟨hclosed, hwait⟩ := h.canceled (hcanceled.symm.trans hc)
        obtain ⟨hwaits, hnone⟩ := hwait (htask ▸ nofun)
        exact ⟨hclosing.trans hclosed, fun _ => ⟨hcall.trans hwaits, hheld.trans hnone⟩⟩
      · exact absurd ((taskLocks_save _ _).symm.trans hlocks) nofun
    · rename_i pc htask
      split at hstep <;> cases hstep
      obtain ⟨hcanceled, hclosing, hcall, hheld⟩ :=
        @loadStep_frame cityFingerprint legacyFingerprint32 s success pc
      refine ⟨fun hc => ?_, loadStep_loading pc h.loading htask⟩
      obtain ⟨hclosed, hwait⟩ := h.canceled (hcanceled.symm.trans hc)
      obtain ⟨hwaits, hnone⟩ := hwait (htask ▸ nofun)
      exact ⟨hclosing.trans hclosed, fun _ => ⟨hcall.trans hwaits, hheld.trans hnone⟩⟩
    · cases hstep

/-- The destructor after a `Load` that it has cancelled. -/
structure Over (file : Option (List Entry)) (s : Sync) : Prop where
  closing : s.closing = true
  task : s.task = none
  flag : s.needsSync = false
  call : s.call = some .wait ∨ s.call = some (.save .test) ∨ s.call = none
  held : s.held = []
  file : s.file = file

theorem Over.step {file : Option (List Entry)} (h : Over file s) {event : SyncEvent}
    (hstep : step cityFingerprint legacyFingerprint32 s event = some s') : Over file s' := by
  obtain ⟨hclosing, htask, hflag, hcall, hheld, hfile⟩ := h
  cases event with
  | enter update =>
    rw [Sync.step, if_neg fun hguard => hguard.2.1 hclosing] at hstep
    cases hstep
  | change =>
    rw [Sync.step] at hstep
    rcases hcall with hc | hc | hc <;> rw [hc] at hstep <;> cases hstep
  | write i entry =>
    rw [Sync.step, hheld] at hstep
    split at hstep
    · rename_i hnone
      cases hnone
    · cases hstep
  | release i =>
    rw [Sync.step, hheld, if_neg fun hguard => Nat.not_lt_zero i hguard.2] at hstep
    cases hstep
  | asyncSave =>
    rw [Sync.step, if_neg fun hguard => hguard.2 hclosing] at hstep
    cases hstep
  | asyncLoad =>
    rw [Sync.step, if_neg fun hguard => hguard.2 hclosing] at hstep
    cases hstep
  | clear =>
    rw [Sync.step, if_neg fun hguard => hguard.2.1 hclosing] at hstep
    cases hstep
  | destroy =>
    rw [Sync.step, if_neg fun hguard => hguard.2.1 hclosing] at hstep
    cases hstep
  | wait =>
    rw [Sync.step] at hstep
    split at hstep <;> cases hstep
    exact ⟨hclosing, htask, hflag, .inr (.inl rfl), hheld, hfile⟩
  | save success =>
    rw [Sync.step] at hstep
    rcases hcall with hc | hc | hc <;> rw [hc] at hstep
    · cases hstep
    · have htest : saveStep success s .test = (none, s) := by
        dsimp only [saveStep]
        rw [if_neg (by rw [hflag]; decide)]
      dsimp only at hstep
      rw [if_neg (fun hcopy => nomatch hcopy.1), htest] at hstep
      cases hstep
      refine ⟨hclosing, htask, hflag, .inr (.inr rfl), ?_, hfile⟩
      show s.held.tail = []
      rw [hheld]
      rfl
    · cases hstep
  | task success =>
    rw [Sync.step, htask] at hstep
    cases hstep

theorem Canceling.over (h : Canceling s) {entry : Entry} {rest : List Entry}
    (htask : s.task = some (.load (.insert (entry :: rest)))) (hcanceled : s.canceled = true)
    (hstep : Sync.step cityFingerprint legacyFingerprint32 s (.task success) = some s') :
    Over s.file s' := by
  have hlocks : s.taskLocks = true := by rw [taskLocks, htask]
  obtain ⟨hclosing, hwait⟩ := h.canceled hcanceled
  obtain ⟨hwaits, hnone⟩ := hwait (htask ▸ nofun)
  have hstop : loadStep cityFingerprint legacyFingerprint32 success s (.insert (entry :: rest)) =
      (none, s) := by
    dsimp only [loadStep]
    rw [if_pos hcanceled]
  rw [Sync.step, htask] at hstep
  dsimp only at hstep
  rw [if_neg (fun henter => nomatch henter.1), hstop] at hstep
  cases hstep
  exact ⟨hclosing, rfl, h.loading hlocks, .inl hwaits, hnone, rfl⟩

end invariant

section main

variable (cityFingerprint : Bytes → UInt64) (legacyFingerprint32 : Bytes → UInt32)
  (file : Option (List Entry))

/-- Whenever the flag is clear and no `Save` is running the file has the entries, in every run in
which no update begins between the copy of a `Save` and its end; and what a cancelled `Load` has
taken is never saved. -/
theorem synced_of_undisturbed :
    (∀ events s,
      Run (step cityFingerprint legacyFingerprint32) Undisturbed (init file) events s →
        Synced cityFingerprint legacyFingerprint32 s) ∧
    ∀ events s entry rest success s' events' s'',
      Run (step cityFingerprint legacyFingerprint32) (fun _ _ => True) (init file) events s →
      s.task = some (.load (.insert (entry :: rest))) → s.canceled = true →
      step cityFingerprint legacyFingerprint32 s (.task success) = some s' →
      Run (step cityFingerprint legacyFingerprint32) (fun _ _ => True) s' events' s'' →
        s''.file = s.file := by
  constructor
  · intro events s hrun hflag _ _
    have hinv : Inv cityFingerprint legacyFingerprint32 s :=
      hrun.inv (inv_init file) fun s event s' h hok hstep => h.step hok hstep
    exact hinv.synced hflag
  · intro events s entry rest success s' events' s'' hrun htask hcanceled hstep hrun'
    have hcanceling : Canceling s :=
      hrun.inv (canceling_init file) fun s event s' h _ hstep => h.step hstep
    have hover : Over s.file s' := hcanceling.over htask hcanceled hstep
    have hover' : Over s.file s'' := hrun'.inv hover fun s event s' h _ hstep => h.step hstep
    exact hover'.file

end main

section runs

def savedEntry (key : UInt8) : Entry := { key := [key], value := [key] }

def saveEvents (key : UInt8) : List SyncEvent :=
  [.enter (.insert (savedEntry key)), .change, .asyncSave, .task true, .task true]

def firstByte (key : Bytes) : UInt64 := (key.headD 0).toUInt64

/-- One entry is saved. -/
theorem synced_one : ∃ s, Run (step firstByte fun _ => 0) Undisturbed (init none)
      (.task true :: saveEvents 97 ++ [.task true, .task true]) s ∧
    s.needsSync = false ∧ s.file = some [savedEntry 97] ∧ Synced firstByte (fun _ => 0) s := by
  have hrun : ∃ s, Run (step firstByte fun _ => 0) Undisturbed (init none)
      (.task true :: saveEvents 97 ++ [.task true, .task true]) s ∧
      s.needsSync = false ∧ s.file = some [savedEntry 97] :=
    ⟨_, Run.of_foldlM rfl, rfl, rfl⟩
  obtain ⟨s, hs, hflag, hfile⟩ := hrun
  exact ⟨s, hs, hflag, hfile, (synced_of_undisturbed firstByte (fun _ => 0) none).1 _ _ hs⟩

/-- An entry that is inserted while the file is written is forgotten. -/
theorem not_synced : ¬ ∀ events s,
    Run (step firstByte fun _ => 0) (fun _ _ => True) (init none) events s →
      Synced firstByte (fun _ => 0) s := by
  intro h
  have hrun : ∃ s, Run (step firstByte fun _ => 0) (fun _ _ => True) (init none)
      (.task true :: saveEvents 97 ++
        [.enter (.insert (savedEntry 98)), .change, .task true, .task true]) s ∧
      s.needsSync = false ∧ s.callSaving = false ∧ s.taskSaving = false ∧
      s.file = some [savedEntry 97] ∧ s.dic.values = [savedEntry 98, savedEntry 97] :=
    ⟨_, Run.of_foldlM rfl, rfl, rfl, rfl, rfl, rfl⟩
  obtain ⟨s, hs, hflag, hcall, htask, hfile, hdic⟩ := hrun
  have hcontains := h _ s hs hflag hcall htask
  rw [Contains, hfile, hdic] at hcontains
  revert hcontains
  decide

end runs

end Sync

end Mozkey.Prediction
