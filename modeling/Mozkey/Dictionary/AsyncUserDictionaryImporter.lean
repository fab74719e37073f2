import Mozkey.Converter.Lattice
import Mozkey.Lib.Runs

/-! `AsyncUserDictionaryImporter` of `dictionary/user_dictionary.cc`: a thread that calls `Import`, the
task that imports what is queued, and the `TaskManager` of `base/thread.h` between them.  An event is
what one thread does up to its next access to what both of them see. -/

namespace Mozkey.Dictionary

open Converter (Bytes)

structure ImportData where
  name : Bytes
  data : Bytes
  deriving DecidableEq

/-- What the task makes of the storage and of its file. -/
structure StorageModules (σ : Type) where
  load : σ → σ
  importData : σ → ImportData → σ
  save : σ → σ

namespace AsyncImporter

inductive Caller where
  | idle
  | enqueue (data : ImportData)
  | isRunning
  | schedule
  deriving DecidableEq

/-- Where `StartImportLoop` is.  At `notify` it has returned, and at `ready` the task has told so. -/
inductive Task where
  | hasPendingImportData
  | isCanceled
  | load
  | isCanceledInner
  | pop
  | importData (data : ImportData)
  | isCanceledLast
  | loadDictionary
  | save
  | notify
  | ready
  deriving DecidableEq

/-- `accepted` and `popped` are all items that came to the queue and that left it. -/
structure State (σ : Type) where
  queue : List ImportData := []
  canceledSignal : Bool := false
  caller : Caller := .idle
  task : Option Task := none
  file : σ
  storage : σ
  dictionary : σ
  accepted : List ImportData := []
  popped : List ImportData := []

inductive Event where
  | call (data : ImportData)
  | caller
  | task
  | cancel
  deriving DecidableEq

variable {σ : Type}

def State.isRunning (s : State σ) : Bool :=
  match s.task with
  | none => false
  | some task => task ≠ .ready

def importCall (s : State σ) (data : ImportData) : Option (State σ) :=
  if s.caller ≠ .idle then none
  else if data.name = [] then some s
  else some { s with caller := .enqueue data }

def callerStep (s : State σ) : Option (State σ) :=
  match s.caller with
  | .idle => none
  | .enqueue data => some
      { s with
        queue := s.queue ++ [data]
        accepted := s.accepted ++ [data]
        caller := .isRunning }
  | .isRunning => some { s with caller := if s.isRunning then .idle else .schedule }
  | .schedule =>
    -- `Schedule` waits for the task that was there before
    if s.isRunning then none
    else some { s with task := some .hasPendingImportData, caller := .idle }

def taskStep (modules : StorageModules σ) (s : State σ) : Option (State σ) :=
  match s.task with
  | none => none
  | some .hasPendingImportData =>
    some { s with task := some (if s.queue = [] then .notify else .isCanceled) }
  | some .isCanceled => some { s with task := some (if s.canceledSignal then .notify else .load) }
  | some .load =>
    some { s with storage := modules.load s.file, task := some .isCanceledInner }
  | some .isCanceledInner =>
    some { s with task := some (if s.canceledSignal then .notify else .pop) }
  | some .pop =>
    match s.queue with
    | [] => some { s with task := some .isCanceledLast }
    | data :: queue => some
        { s with queue, popped := s.popped ++ [data], task := some (.importData data) }
  | some (.importData data) => some
      { s with storage := modules.importData s.storage data, task := some .isCanceledInner }
  | some .isCanceledLast =>
    some { s with task := some (if s.canceledSignal then .notify else .loadDictionary) }
  | some .loadDictionary => some { s with dictionary := s.storage, task := some .save }
  | some .save => some { s with file := modules.save s.storage, task := some .hasPendingImportData }
  | some .notify => some { s with task := some .ready }
  | some .ready => none

def step (modules : StorageModules σ) (s : State σ) : Event → Option (State σ)
  | .call data => importCall s data
  | .caller => callerStep s
  | .task => taskStep modules s
  | .cancel => some { s with canceledSignal := true }

def init (file : σ) : State σ := { file, storage := file, dictionary := file }

/-- Every item is popped once and in the order of arrival, and none is left behind while nobody is
about to take it. -/
structure State.Keeps (s : State σ) : Prop where
  in_order : s.accepted = s.popped ++ s.queue
  none_left : s.canceledSignal = false → s.caller = .idle → s.isRunning = false → s.queue = []

/-- The caller asks whether the task runs after the loop has seen an empty queue for the last time and
before the task says that it has ended, with an item in the queue. -/
def LosesWakeUp (s : State σ) (e : Event) : Prop :=
  e = .caller ∧ s.caller = .isRunning ∧ s.task = some .notify ∧ s.queue ≠ []

/-- Somebody is about to take what is queued: a call that will see the task ended, or the loop before
its last look at the queue. -/
def State.Awaited (s : State σ) : Prop :=
  s.queue = [] ∨ s.caller = .isRunning ∨ s.caller = .schedule ∨
    ∃ task, s.task = some task ∧ task ≠ .notify ∧ task ≠ .ready

structure State.Inv (s : State σ) : Prop where
  in_order : s.accepted = s.popped ++ s.queue
  awaited : s.canceledSignal = false → s.Awaited

theorem State.Inv.keeps {s : State σ} (h : s.Inv) : s.Keeps := by
  refine ⟨h.in_order, fun hcanceled hidle hrunning => ?_⟩
  rcases h.awaited hcanceled with hqueue | hcaller | hcaller | ⟨task, htask, -, hready⟩
  · exact hqueue
  · rw [hidle] at hcaller
    cases hcaller
  · rw [hidle] at hcaller
    cases hcaller
  · simp [isRunning, htask, hready] at hrunning

theorem importCall_inv {s s' : State σ} {data : ImportData} (hi : s.Inv)
    (h : importCall s data = some s') : s'.Inv := by
  rw [importCall] at h
  split_ifs at h with hidle hname
  · exact Option.some.inj h ▸ hi
  · obtain rfl := Option.some.inj h
    rw [not_not] at hidle
    refine ⟨hi.in_order, fun hcanceled => ?_⟩
    rcases hi.awaited hcanceled with hqueue | hcaller | hcaller | htask
    · exact .inl hqueue
    · rw [hidle] at hcaller
      cases hcaller
    · rw [hidle] at hcaller
      cases hcaller
    · exact .inr (.inr (.inr htask))

theorem callerStep_inv {s s' : State σ} (hi : s.Inv) (hok : ¬LosesWakeUp s .caller)
    (h : callerStep s = some s') : s'.Inv := by
  obtain ⟨horder, hawaited⟩ := hi
  rw [callerStep] at h
  split at h
  · cases h
  · obtain rfl := Option.some.inj h
    exact ⟨by simp [horder], fun _ => .inr (.inl rfl)⟩
  · next hcaller =>
    obtain rfl := Option.some.inj h
    refine ⟨horder, fun _ => ?_⟩
    by_cases hrunning : s.isRunning
    · -- the call trusts the task, which still looks at the queue unless the wake-up is lost
      by_cases hqueue : s.queue = []
      · exact .inl hqueue
      · rw [State.isRunning] at hrunning
        split at hrunning
        · cases hrunning
        · next task htask =>
          refine .inr (.inr (.inr ⟨task, htask, ?_, of_decide_eq_true hrunning⟩))
          rintro rfl
          exact hok ⟨rfl, hcaller, htask, hqueue⟩
    · exact .inr (.inr (.inl (if_neg hrunning)))
  · split_ifs at h
    obtain rfl := Option.some.inj h
    exact ⟨horder, fun _ => .inr (.inr (.inr ⟨_, rfl, by decide, by decide⟩))⟩

theorem State.Inv.of_task {s s' : State σ} {task : Task} (hi : s.Inv) (hqueue : s'.queue = s.queue)
    (haccepted : s'.accepted = s.accepted) (hpopped : s'.popped = s.popped)
    (htask : s'.task = some task) (hnotify : task ≠ .notify) (hready : task ≠ .ready) : s'.Inv := by
  refine ⟨?_, fun _ => .inr (.inr (.inr ⟨task, htask, hnotify, hready⟩))⟩
  rw [hqueue, haccepted, hpopped, hi.in_order]

theorem State.Inv.of_test {s : State σ} {task : Task} (hi : s.Inv) (hnotify : task ≠ .notify)
    (hready : task ≠ .ready) :
    State.Inv { s with task := some (if s.canceledSignal then .notify else task) } := by
  refine ⟨hi.in_order, fun hcanceled => .inr (.inr (.inr ⟨task, ?_, hnotify, hready⟩))⟩
  replace hcanceled : s.canceledSignal = false := hcanceled
  simp [hcanceled]

theorem taskStep_inv {modules : StorageModules σ} {s s' : State σ} (hi : s.Inv)
    (h : taskStep modules s = some s') : s'.Inv := by
  rw [taskStep] at h
  split at h
  · cases h
  · obtain rfl := Option.some.inj h
    by_cases hqueue : s.queue = []
    · exact ⟨hi.in_order, fun _ => .inl hqueue⟩
    · exact hi.of_task rfl rfl rfl (congrArg some (if_neg hqueue)) (by decide) (by decide)
  · exact Option.some.inj h ▸ hi.of_test (by decide) (by decide)
  · obtain rfl := Option.some.inj h
    exact hi.of_task rfl rfl rfl rfl (by decide) (by decide)
  · exact Option.some.inj h ▸ hi.of_test (by decide) (by decide)
  · split at h
    · obtain rfl := Option.some.inj h
      exact hi.of_task rfl rfl rfl rfl (by decide) (by decide)
    · next data queue hqueue =>
      obtain rfl := Option.some.inj h
      refine ⟨?_, fun _ => .inr (.inr (.inr ⟨_, rfl, by simp, by simp⟩))⟩
      simp [hi.in_order, hqueue]
  · obtain rfl := Option.some.inj h
    exact hi.of_task rfl rfl rfl rfl (by decide) (by decide)
  · exact Option.some.inj h ▸ hi.of_test (by decide) (by decide)
  · obtain rfl := Option.some.inj h
    exact hi.of_task rfl rfl rfl rfl (by decide) (by decide)
  · obtain rfl := Option.some.inj h
    exact hi.of_task rfl rfl rfl rfl (by decide) (by decide)
  · next htask =>
    -- the task ends: what is queued came after the last look, and its call has yet to ask
    obtain rfl := Option.some.inj h
    refine ⟨hi.in_order, fun hcanceled => ?_⟩
    rcases hi.awaited hcanceled with hqueue | hcaller | hcaller | ⟨task, htask', hnotify, -⟩
    · exact .inl hqueue
    · exact .inr (.inl hcaller)
    · exact .inr (.inr (.inl hcaller))
    · rw [htask] at htask'
      exact absurd (Option.some.inj htask').symm hnotify
  · cases h

theorem step_inv {modules : StorageModules σ} {s s' : State σ} {e : Event} (hi : s.Inv)
    (hok : ¬LosesWakeUp s e) (h : step modules s e = some s') : s'.Inv := by
  cases e with
  | call data => exact importCall_inv hi h
  | caller => exact callerStep_inv hi hok h
  | task => exact taskStep_inv hi h
  | cancel =>
    obtain rfl := Option.some.inj h
    exact ⟨hi.in_order, fun hcanceled => Bool.noConfusion hcanceled⟩

/-- In every run in which no call reads the flag too early, all that is accepted is popped in order and
nothing is left behind. -/
theorem keeps_of_run {modules : StorageModules σ} {file : σ} {es : List Event} {s : State σ}
    (h : Lib.Run (step modules) (fun s e => ¬LosesWakeUp s e) (init file) es s) : s.Keeps := by
  have hinit : (init file).Inv := ⟨rfl, fun _ => .inl rfl⟩
  exact (h.inv hinit fun s e s' hi hok hnext => step_inv hi hok hnext).keeps

instance (s : State σ) (e : Event) : Decidable (LosesWakeUp s e) :=
  inferInstanceAs (Decidable (_ ∧ _ ∧ _ ∧ _))

/-- Storages of which only the items that were imported matter. -/
def recordingModules : StorageModules (List ImportData) where
  load file := file
  importData storage data := storage ++ [data]
  save storage := storage

def work : ImportData := ⟨[0x77], [0x61, 0x09, 0x62]⟩

def home : ImportData := ⟨[0x68], []⟩

def oneImport : List Event := [.call work, .caller, .caller, .caller] ++ List.replicate 12 .task

theorem keeps_of_run_oneImport : State.Keeps
    { file := [work], storage := [work], dictionary := [work], task := some .notify,
      accepted := [work], popped := [work] } := by
  have hrun : Lib.Run (step recordingModules) (fun s e => ¬LosesWakeUp s e) (init []) oneImport
      { file := [work], storage := [work], dictionary := [work], task := some .notify,
        accepted := [work], popped := [work] } :=
    Lib.Run.of_foldlM rfl
  exact keeps_of_run hrun

/-- The second import comes when the loop has seen the queue empty, and reads the flag before the task
ends. -/
def lateImport : List Event := oneImport ++ [.call home, .caller, .caller, .task]

theorem not_keeps_late : ¬∀ (es : List Event) (s : State (List ImportData)),
    Lib.Run (step recordingModules) (fun _ _ => True) (init []) es s → s.Keeps := by
  intro h
  have hrun : Lib.Run (step recordingModules) (fun _ _ => True) (init []) lateImport
      { file := [work], storage := [work], dictionary := [work], task := some .ready,
        queue := [home], accepted := [work, home], popped := [work] } :=
    Lib.Run.of_foldlM rfl
  have hleft := (h _ _ hrun).none_left rfl rfl rfl
  cases hleft

/-- A call that reads the flag too early leaves its item behind as soon as the task ends. -/
theorem not_keeps_of_losesWakeUp (modules : StorageModules σ) {s : State σ} {e : Event}
    (hcanceled : s.canceledSignal = false) (h : LosesWakeUp s e) :
    ∃ t u, step modules s e = some t ∧ step modules t .task = some u ∧ ¬u.Keeps := by
  obtain ⟨rfl, hcaller, htask, hqueue⟩ := h
  have hrunning : s.isRunning = true := by simp [State.isRunning, htask]
  refine ⟨{ s with caller := .idle }, { s with caller := .idle, task := some .ready }, ?_, ?_, ?_⟩
  · rw [step, callerStep, hcaller]
    simp [hrunning]
  · rw [step, taskStep]
    simp [htask]
  · intro hkeeps
    exact hqueue (hkeeps.none_left hcanceled rfl rfl)

end AsyncImporter

end Mozkey.Dictionary
