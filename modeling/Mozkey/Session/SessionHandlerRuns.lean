import Mozkey.Lib.Runs
import Mozkey.Session.SessionHandler

/-! Runs of a `SessionHandler`: which sessions it has, and when it ends. -/

namespace Mozkey.Server

open Storage Lib

/-- What an observer knows of a session: when it was created and last used, by the clock and as the
number of a command, and its process. -/
structure Usage where
  created : Int
  accessed : Option Int
  turn : Nat
  processId : Option Nat

/-- The handler beside the last reading of the clock, the number of commands so far, the time since
which the map is empty, and the usage of every session. -/
structure World where
  handler : SessionHandler
  clock : Int
  turn : Nat
  emptySince : Option Int
  usage : UInt64 → Usage

/-- The time since which `sessionMap` is empty, if it was so since `emptySince` or becomes so now. -/
def emptyAfter (now : Int) (emptySince : Option Int) (sessionMap : SessionMap) : Option Int :=
  if sessionMap = [] then emptySince.or (some now) else none

namespace World

def start (flags : Flags) (watchDog : Bool) (now : Int) : World :=
  { handler := SessionHandler.new flags watchDog now, clock := now, turn := 0, emptySince := some now,
    usage := fun _ => ⟨now, none, 0, none⟩ }

variable (w : World)

def observe (output : Output) (e : Event) : UInt64 → Usage :=
  if w.handler.isAvailable = true ∧ output.sessionFailure = false then
    match e.input with
    | .createSession processId =>
      Function.update w.usage output.id
        { created := e.later, accessed := none, turn := w.turn, processId }
    | .sendKey id _ | .testSendKey id _ | .sendCommand id _ =>
      Function.update w.usage id { w.usage id with accessed := some e.now, turn := w.turn }
    | _ => w.usage
  else w.usage

def step (e : Event) : Option World :=
  (w.handler.evalCommand e).map fun (output, handler) =>
    { handler, clock := e.later, turn := w.turn + 1
      emptySince := emptyAfter e.later w.emptySince handler.sessionMap
      usage := w.observe output e }

def Clocked (e : Event) : Prop := w.clock ≤ e.now ∧ e.now ≤ e.later

instance (e : Event) : Decidable (w.Clocked e) := inferInstanceAs (Decidable (_ ∧ _))

def Available (id : UInt64) : Prop :=
  w.handler.isAvailable = true ∧ ∃ x ∈ w.handler.sessionMap, x.1 = id

def ApplicationEnded (e : Event) (id : UInt64) : Prop :=
  ∃ p ∈ (w.usage id).processId, e.isProcessAlive p = false

def IdleLimitExceeded (e : Event) (id : UInt64) : Prop :=
  match (w.usage id).accessed with
  | none => w.handler.createSessionTimeout e.now ≤ e.now - (w.usage id).created
  | some t => w.handler.lastCommandTimeout e.now ≤ e.now - t

/-- A session may leave: it is deleted, it is the least recently used one where the map is full, or
it is cleaned up. -/
def Removes (e : Event) (id : UInt64) : Prop :=
  match e.input with
  | .createSession _ => w.handler.sessionMap.length = w.handler.maxSessionSize ∧
      ∀ x ∈ w.handler.sessionMap, x.1 ≠ id → (w.usage id).turn < (w.usage x.1).turn
  | .deleteSession id' => id' = id
  | .cleanup => w.ApplicationEnded e id ∨ w.IdleLimitExceeded e id
  | _ => False

/-- The server may end: the timeout is enabled, and the map has been empty for as long. -/
def MayShutDown (e : Event) (w' : World) : Prop :=
  e.input = .cleanup ∧ 0 < w.handler.flags.timeout ∧ w'.handler.sessionMap = [] ∧
    ∃ t ∈ w'.emptySince, seconds w.handler.flags.timeout ≤ e.now - t

/-- The ids of the sessions differ and are not zero, and the map is not too large. -/
def MapSound : Prop :=
  (w.handler.sessionMap.map Prod.fst).Nodup ∧ (∀ x ∈ w.handler.sessionMap, x.1 ≠ 0) ∧
    w.handler.sessionMap.length ≤ w.handler.maxSessionSize

/-- Every run whose steps all meet `ok` keeps the sessions that it may not lose, and ends only where
it may. -/
def Sound (ok : World → Event → Prop) (init : World) : Prop :=
  ∀ es w, Run step ok init es w → w.MapSound ∧
    (∀ e w', ok w e → w.step e = some w' → w.handler.isAvailable = true →
      w'.handler.isAvailable = false → w.MayShutDown e w') ∧
    (∀ e processId output handler, ok w e → e.input = .createSession processId →
      w.handler.isAvailable = true → w.handler.evalCommand e = some (output, handler) →
      output.sessionFailure = false →
      handler.isAvailable = true ∧ ∃ x ∈ handler.sessionMap, x.1 = output.id) ∧
    ∀ es' w' id, Run step ok w es' w' → w.Available id → ¬ w'.Available id →
      ∃ as e bs u u', es' = as ++ e :: bs ∧ Run step ok w as u ∧ u.step e = some u' ∧
        u.Available id ∧ ¬ u'.Available id ∧ u.Removes e id

end World

section maps

variable {m m' : SessionMap} {usage : UInt64 → Usage} {turn : Nat} {id : UInt64} {s : Session}
  {u : Usage}

/-- The contexts of the session are all of its own time and process. -/
def Session.Recorded (s : Session) (u : Usage) : Prop :=
  ∀ context ∈ s.context :: s.undoContexts,
    context.createTime = u.created ∧ context.processId = u.processId

structure MapInv (m : SessionMap) (usage : UInt64 → Usage) (turn : Nat) : Prop where
  nonzero : ∀ x ∈ m, x.1 ≠ 0
  recent : m.Pairwise fun x y => (usage y.1).turn < (usage x.1).turn
  before : ∀ x ∈ m, (usage x.1).turn < turn
  recorded : ∀ x ∈ m, x.2.Recorded (usage x.1)

theorem MapInv.nodup (h : MapInv m usage turn) : (m.map Prod.fst).Nodup := by
  refine List.pairwise_map.mpr (h.recent.imp fun hlt heq => ?_)
  rw [heq] at hlt
  exact Nat.lt_irrefl _ hlt

theorem MapInv.sublist (h : MapInv m usage turn) (hsub : m'.Sublist m) : MapInv m' usage turn where
  nonzero x hx := h.nonzero x (hsub.mem hx)
  recent := h.recent.sublist hsub
  before x hx := h.before x (hsub.mem hx)
  recorded x hx := h.recorded x (hsub.mem hx)

theorem MapInv.next (h : MapInv m usage turn) : MapInv m usage (turn + 1) :=
  { h with before := fun x hx => Nat.lt_succ_of_lt (h.before x hx) }

theorem MapInv.cons (h : MapInv m usage turn) (hid : id ≠ 0) (hnew : ∀ x ∈ m, x.1 ≠ id)
    (hs : s.Recorded u) (hturn : u.turn = turn) :
    MapInv ((id, s) :: m) (Function.update usage id u) (turn + 1) where
  nonzero := List.forall_mem_cons.mpr ⟨hid, h.nonzero⟩
  recent := by
    refine List.pairwise_cons.mpr ⟨fun x hx => ?_, h.recent.imp_of_mem fun {x y} hx hy hlt => ?_⟩
    · rw [Function.update_of_ne (hnew x hx), Function.update_self, hturn]
      exact h.before x hx
    · rwa [Function.update_of_ne (hnew x hx), Function.update_of_ne (hnew y hy)]
  before := by
    refine List.forall_mem_cons.mpr ⟨?_, fun x hx => ?_⟩
    · rw [Function.update_self, hturn]
      exact Nat.lt_succ_self turn
    · rw [Function.update_of_ne (hnew x hx)]
      exact Nat.lt_succ_of_lt (h.before x hx)
  recorded := by
    refine List.forall_mem_cons.mpr ⟨?_, fun x hx => ?_⟩
    · rwa [Function.update_self]
    · rw [Function.update_of_ne (hnew x hx)]
      exact h.recorded x hx

theorem MapInv.getLast (h : MapInv m usage turn) {last : UInt64 × Session}
    (hlast : m.getLast? = some last) :
    ∀ x ∈ m, x.1 ≠ last.1 → (usage last.1).turn < (usage x.1).turn := by
  obtain ⟨as, rfl⟩ := List.getLast?_eq_some_iff.mp hlast
  intro x hx hne
  rcases List.mem_append.mp hx with hx | hx
  · exact (List.pairwise_append.mp h.recent).2.2 x hx last (List.mem_singleton_self last)
  · rw [List.mem_singleton.mp hx] at hne
    exact absurd rfl hne

theorem mem_of_lookup (h : RecencyList.lookup m id = some s) : (id, s) ∈ m := by
  obtain ⟨⟨id', s'⟩, hfind, rfl⟩ := Option.map_eq_some_iff.mp h
  obtain rfl : id' = id := by simpa using List.find?_some hfind
  exact List.mem_of_find?_eq_some hfind

theorem erase_of_lookup_none (h : RecencyList.lookup m id = none) : RecencyList.erase m id = m := by
  refine List.filter_eq_self.mpr fun x hx => ?_
  exact decide_eq_true fun heq =>
    List.find?_eq_none.mp (Option.map_eq_none_iff.mp h) x hx (decide_eq_true heq)

theorem ne_of_mem_erase {x : UInt64 × Session} (h : x ∈ RecencyList.erase m id) : x.1 ≠ id :=
  of_decide_eq_true (List.mem_filter.mp h).2

theorem erase_sublist : (RecencyList.erase m id).Sublist m := List.filter_sublist

theorem erase_touch : RecencyList.erase (RecencyList.touch m id) id = RecencyList.erase m id := by
  rw [RecencyList.touch]
  split
  · rename_i x hx
    have hkey : x.1 = id := by simpa using List.find?_some hx
    rw [RecencyList.erase, List.filter_cons_of_neg (by simpa using hkey), RecencyList.erase,
      List.filter_filter]
    simp
  · rfl

end maps

section sessions

variable {s : Session} {u : Usage} {now : Int}

theorem Session.Recorded.applyUndo (h : s.Recorded u) (op : UndoOp) : (s.applyUndo op).Recorded u := by
  obtain ⟨hcontext, hundo⟩ := List.forall_mem_cons.mp h
  cases op with
  | pushUndoContext =>
    refine List.forall_mem_cons.mpr ⟨hcontext, fun context hmem => ?_⟩
    rcases List.mem_append.mp (List.mem_of_mem_drop hmem) with hmem | hmem
    · exact hundo context hmem
    · rwa [List.mem_singleton.mp hmem]
  | popUndoContext =>
    dsimp only [Session.applyUndo]
    split
    · exact h
    · rename_i context hlast
      refine List.forall_mem_cons.mpr ⟨hundo context (List.mem_of_getLast? hlast), ?_⟩
      exact fun context hmem => hundo context (List.mem_of_mem_dropLast hmem)
  | clearUndoContext => exact List.forall_mem_cons.mpr ⟨hcontext, fun _ h => by cases h⟩

theorem Session.Recorded.command (h : s.Recorded u) (undo : List UndoOp) :
    (s.command now undo).Recorded u := by
  have htime : (s.updateTime now).Recorded u := by
    obtain ⟨hcontext, hundo⟩ := List.forall_mem_cons.mp h
    exact List.forall_mem_cons.mpr ⟨hcontext, hundo⟩
  rw [Session.command]
  generalize s.updateTime now = s' at htime
  induction undo generalizing s' with
  | nil => exact htime
  | cons op undo ih => exact ih _ (htime.applyUndo op)

end sessions

namespace SessionHandler

variable {h h' : SessionHandler} {e : Event} {id : UInt64} {now : Int}

def EmptyTimed (h : SessionHandler) : Prop := h.sessionMap = [] ↔ h.lastSessionEmptyTime.isSome

def leave (h : SessionHandler) (now : Int) (sessionMap : SessionMap) : SessionHandler :=
  { h with sessionMap, lastSessionEmptyTime := emptyAfter now h.lastSessionEmptyTime sessionMap }

theorem EmptyTimed.leave (h : SessionHandler) (now : Int) (m : SessionMap) :
    (h.leave now m).EmptyTimed := by
  show m = [] ↔ (emptyAfter now h.lastSessionEmptyTime m).isSome
  rw [emptyAfter]
  split
  · rename_i hm
    cases h.lastSessionEmptyTime <;> exact iff_of_true hm rfl
  · rename_i hm
    exact iff_of_false hm Bool.false_ne_true

theorem EmptyTimed.emptyAfter_eq (ht : h.EmptyTimed) :
    emptyAfter now h.lastSessionEmptyTime h.sessionMap = h.lastSessionEmptyTime := by
  rw [emptyAfter]
  split
  · rename_i hm
    obtain ⟨t, hlast⟩ := Option.isSome_iff_exists.mp (ht.mp hm)
    rw [hlast, Option.some_or]
  · rename_i hm
    exact (Option.not_isSome_iff_eq_none.mp (mt ht.mpr hm)).symm

theorem EmptyTimed.leave_self (ht : h.EmptyTimed) : h.leave now h.sessionMap = h := by
  rw [SessionHandler.leave, ht.emptyAfter_eq]

theorem EmptyTimed.leave_leave (ht : h.EmptyTimed) {m m' : SessionMap}
    (hsub : m.Sublist h.sessionMap) : (h.leave now m).leave now m' = h.leave now m' := by
  have htime : emptyAfter now (emptyAfter now h.lastSessionEmptyTime m) m' =
      emptyAfter now h.lastSessionEmptyTime m' := by
    by_cases hm' : m' = []
    · rw [emptyAfter, emptyAfter, emptyAfter, if_pos hm', if_pos hm']
      by_cases hm : m = []
      · rw [if_pos hm, Option.or_assoc, Option.or_self]
      · have hne : h.sessionMap ≠ [] := fun hnil => hm (List.sublist_nil.mp (hnil ▸ hsub))
        rw [if_neg hm, Option.not_isSome_iff_eq_none.mp (mt ht.mpr hne)]
    · exact (if_neg hm').trans (if_neg hm').symm
  rw [SessionHandler.leave, SessionHandler.leave, SessionHandler.leave, htime]

theorem deleteSessionID_eq (ht : h.EmptyTimed) :
    (h.deleteSessionID id now).2 = h.leave now (h.sessionMap.erase id) := by
  dsimp only [deleteSessionID]
  split
  · rename_i hnone
    rw [erase_of_lookup_none hnone, ht.leave_self]
  · rename_i s hs
    have hne : h.sessionMap ≠ [] := List.ne_nil_of_mem (mem_of_lookup hs)
    have hlast : h.lastSessionEmptyTime = none := Option.not_isSome_iff_eq_none.mp (mt ht.mpr hne)
    rw [erase_touch, SessionHandler.leave, emptyAfter, hlast]
    by_cases hm : RecencyList.erase h.sessionMap id = []
    · rw [if_pos ⟨rfl, hm⟩, if_pos hm]
      rfl
    · rw [if_neg (fun hand => hm hand.2), if_neg hm, ← hlast]

theorem foldl_deleteSessionID (ht : h.EmptyTimed) (ids : List UInt64) :
    ids.foldl (fun h id => (h.deleteSessionID id now).2) h =
      h.leave now (h.sessionMap.filter fun x => x.1 ∉ ids) := by
  induction ids generalizing h with
  | nil =>
    rw [List.foldl_nil, List.filter_eq_self.mpr (by simp), ht.leave_self]
  | cons id ids ih =>
    rw [List.foldl_cons, deleteSessionID_eq ht, ih (EmptyTimed.leave _ _ _)]
    have hfilter : (RecencyList.erase h.sessionMap id).filter (fun x => x.1 ∉ ids) =
        h.sessionMap.filter fun x => x.1 ∉ id :: ids := by
      rw [RecencyList.erase, List.filter_filter]
      refine List.filter_congr fun x _ => ?_
      simp [Bool.and_comm]
    rw [← hfilter]
    exact ht.leave_leave erase_sublist

def survivors (h : SessionHandler) (e : Event) : SessionMap :=
  h.sessionMap.filter fun x => ¬ h.Expires e x.2

theorem filter_removeIds (hnodup : (h.sessionMap.map Prod.fst).Nodup) :
    h.sessionMap.filter (fun x => x.1 ∉ h.removeIds e) = h.survivors e := by
  refine List.filter_congr fun x hx => ?_
  have hmem : x.1 ∈ h.removeIds e ↔ h.Expires e x.2 := by
    constructor
    · intro hid
      obtain ⟨y, hy, hyx⟩ := List.mem_map.mp hid
      obtain ⟨hym, hexpires⟩ := List.mem_filter.mp hy
      rw [List.inj_on_of_nodup_map hnodup hym hx hyx] at hexpires
      exact of_decide_eq_true hexpires
    · exact fun hexpires =>
        List.mem_map_of_mem (List.mem_filter.mpr ⟨hx, decide_eq_true hexpires⟩)
  simp only [hmem]

/-- After `Cleanup`, the map has been empty for as long as the timeout. -/
def TimesOut (h : SessionHandler) (e : Event) : Prop :=
  0 < h.flags.timeout ∧
    ElapsedAtLeast e.now (emptyAfter e.later h.lastSessionEmptyTime (h.survivors e))
      (h.suspendTime e.now + seconds h.flags.timeout)

instance (h : SessionHandler) (e : Event) : Decidable (h.TimesOut e) :=
  inferInstanceAs (Decidable (_ ∧ _))

theorem cleanup_eq (ht : h.EmptyTimed) (hnodup : (h.sessionMap.map Prod.fst).Nodup) :
    h.cleanup e = { h.leave e.later (h.survivors e) with
      lastCleanupTime := some e.now
      isAvailable := h.isAvailable && !decide (h.TimesOut e) } := by
  dsimp only [cleanup]
  rw [foldl_deleteSessionID ht, filter_removeIds hnodup]
  split
  · rename_i htimeout
    rw [show decide (h.TimesOut e) = true from decide_eq_true htimeout, Bool.not_true,
      Bool.and_false]
    rfl
  · rename_i htimeout
    rw [show decide (h.TimesOut e) = false from decide_eq_false htimeout, Bool.not_false,
      Bool.and_true]
    rfl

theorem suspendTime_nonneg (hwatch : ∀ i ∈ h.sessionWatchDog, 0 ≤ i) : 0 ≤ h.suspendTime now := by
  rw [suspendTime]
  split
  · rename_i interval _ hinterval
    have := hwatch interval hinterval
    split <;> omega
  · exact le_rfl

theorem evictOldest_cases (hfull : h.sessionMap.length ≤ h.maxSessionSize)
    (hmax : 0 < h.maxSessionSize) :
    (h.sessionMap.length < h.maxSessionSize ∧ h.evictOldest = some h) ∨
    ∃ last, h.sessionMap.length = h.maxSessionSize ∧ h.sessionMap.getLast? = some last ∧
      h.evictOldest = some { h with sessionMap := h.sessionMap.erase last.1 } := by
  rw [evictOldest]
  by_cases hle : h.maxSessionSize ≤ h.sessionMap.length
  · have hne : h.sessionMap ≠ [] := List.ne_nil_of_length_pos (by omega)
    have hlast := List.getLast?_eq_some_getLast hne
    rw [if_pos hle, hlast]
    exact .inr ⟨_, by omega, rfl, rfl⟩
  · rw [if_neg hle]
    exact .inl ⟨by omega, rfl⟩

theorem insert_of_forall_ne {m : SessionMap} {limit : Nat} (hlt : m.length < limit)
    (hnew : ∀ x ∈ m, x.1 ≠ id) (s : Session) : RecencyList.insert m limit id s = (id, s) :: m := by
  have herase : RecencyList.erase m id = m :=
    List.filter_eq_self.mpr fun x hx => decide_eq_true (hnew x hx)
  rw [RecencyList.insert, herase, if_pos hlt]

theorem createNewSessionID_spec {draws : List { id : UInt64 // id ≠ 0 }}
    {newId : { id : UInt64 // id ≠ 0 }} (hnew : h.createNewSessionID draws = some newId) :
    ∀ x ∈ h.sessionMap, x.1 ≠ newId.val := by
  intro x hx heq
  have hkey : h.hasKey newId.val = false := by simpa using List.find?_some hnew
  have hnone := Option.not_isSome_iff_eq_none.mp (Bool.eq_false_iff.mp hkey)
  have hfind := List.find?_eq_none.mp (Option.map_eq_none_iff.mp hnone) x hx
  exact hfind (decide_eq_true heq)

/-- The handler takes in a new session, where the map is full in the place of the last one. -/
structure Created (h : SessionHandler) (processId : Option Nat) (e : Event) (newId : UInt64)
    (h' : SessionHandler) : Prop where
  base : ∃ base, h' = { h with
      lastCreateSessionTime := some e.now
      sessionMap := (newId, Session.new e.later processId) :: base
      lastSessionEmptyTime := none } ∧
    (∀ x ∈ base, x.1 ≠ newId) ∧ base.length < h.maxSessionSize ∧
    (base = h.sessionMap ∨ ∃ last, h.sessionMap.length = h.maxSessionSize ∧
      h.sessionMap.getLast? = some last ∧ base = h.sessionMap.erase last.1)
  nonzero : newId ≠ 0

theorem createSession_cases (hfull : h.sessionMap.length ≤ h.maxSessionSize)
    (hmax : 0 < h.maxSessionSize) {processId : Option Nat} {newId : Option UInt64}
    (hcreate : h.createSession processId e = some (newId, h')) :
    newId = none ∧ h' = h ∨ ∃ id, newId = some id ∧ h.Created processId e id h' := by
  rw [createSession] at hcreate
  split at hcreate
  · obtain ⟨rfl, rfl⟩ := Prod.mk.inj (Option.some.inj hcreate)
    exact .inl ⟨rfl, rfl⟩
  · refine .inr ?_
    dsimp only at hcreate
    have hevict := @evictOldest_cases { h with lastCreateSessionTime := some e.now } hfull hmax
    rcases hevict with ⟨hlt, heq⟩ | ⟨last, hlen, hlast, heq⟩
    all_goals
      rw [heq] at hcreate
      obtain ⟨id, hid, hpair⟩ := Option.map_eq_some_iff.mp hcreate
      obtain ⟨rfl, rfl⟩ := Prod.mk.inj hpair
      have hnew := createNewSessionID_spec hid
      refine ⟨id.val, rfl, ⟨?_, id.property⟩⟩
    · refine ⟨h.sessionMap, ?_, hnew, hlt, .inl rfl⟩
      rw [insert_of_forall_ne hlt hnew]
    · have hlt : (h.sessionMap.erase last.1).length < h.maxSessionSize := by
        rw [← hlen]
        refine List.length_filter_lt_length_iff_exists.mpr ⟨last, List.mem_of_getLast? hlast, ?_⟩
        simp
      refine ⟨_, ?_, hnew, hlt, .inr ⟨last, hlen, hlast, rfl⟩⟩
      rw [insert_of_forall_ne hlt hnew]

def Commands (e : Event) (id : UInt64) (undo : List UndoOp) : Prop :=
  e.input = .sendKey id undo ∨ e.input = .testSendKey id undo ∨ e.input = .sendCommand id undo

theorem evalCommand_cases (hfull : h.sessionMap.length ≤ h.maxSessionSize)
    (hmax : 0 < h.maxSessionSize) (ht : h.EmptyTimed) (hnodup : (h.sessionMap.map Prod.fst).Nodup)
    (ha : h.isAvailable = true) {output : Output} (he : h.evalCommand e = some (output, h')) :
    (output.sessionFailure = true ∧ h' = h) ∨
    (∃ processId, e.input = .createSession processId ∧ output.sessionFailure = false ∧
      h.Created processId e output.id h') ∨
    (∃ id undo s, Commands e id undo ∧ output.sessionFailure = false ∧ (id, s) ∈ h.sessionMap ∧
      h' = { h with sessionMap := (id, s.command e.now undo) :: h.sessionMap.erase id }) ∨
    (∃ id, e.input = .deleteSession id ∧ h' = h.leave e.later (h.sessionMap.erase id)) ∨
    (e.input = .cleanup ∧ h' = h.cleanup e) := by
  have hcommand : ∀ id undo, Commands e id undo →
      (let result := h.commandSession id undo e.now
       (if result.1 then Output.mk id false else Output.mk 0 true, result.2) = (output, h')) →
      (output.sessionFailure = true ∧ h' = h) ∨
      ∃ id undo s, Commands e id undo ∧ output.sessionFailure = false ∧ (id, s) ∈ h.sessionMap ∧
        h' = { h with sessionMap := (id, s.command e.now undo) :: h.sessionMap.erase id } := by
    intro id undo hcommands heq
    dsimp only [commandSession] at heq
    cases hs : RecencyList.lookup h.sessionMap id with
    | none =>
      rw [hs] at heq
      obtain ⟨rfl, rfl⟩ := Prod.mk.inj heq
      exact .inl ⟨rfl, rfl⟩
    | some s =>
      rw [hs] at heq
      obtain ⟨rfl, rfl⟩ := Prod.mk.inj heq
      exact .inr ⟨id, undo, s, hcommands, rfl, mem_of_lookup hs, rfl⟩
  dsimp only [evalCommand] at he
  rw [if_pos ha] at he
  cases hinput : e.input with
  | createSession processId =>
    rw [hinput] at he
    obtain ⟨⟨newId, h''⟩, hcreate, hpair⟩ := Option.map_eq_some_iff.mp he
    obtain ⟨rfl, rfl⟩ := Prod.mk.inj hpair
    rcases createSession_cases hfull hmax hcreate with ⟨rfl, rfl⟩ | ⟨id, rfl, hcreated⟩
    · exact .inl ⟨rfl, rfl⟩
    · exact .inr (.inl ⟨processId, rfl, rfl, hcreated⟩)
  | deleteSession id =>
    rw [hinput] at he
    obtain ⟨-, rfl⟩ := Prod.mk.inj (Option.some.inj he)
    exact .inr (.inr (.inr (.inl ⟨id, rfl, deleteSessionID_eq ht⟩)))
  | sendKey id undo =>
    rw [hinput] at he
    exact (hcommand id undo (.inl hinput) (Option.some.inj he)).imp_right fun h => .inr (.inl h)
  | testSendKey id undo =>
    rw [hinput] at he
    exact (hcommand id undo (.inr (.inl hinput)) (Option.some.inj he)).imp_right
      fun h => .inr (.inl h)
  | sendCommand id undo =>
    rw [hinput] at he
    exact (hcommand id undo (.inr (.inr hinput)) (Option.some.inj he)).imp_right
      fun h => .inr (.inl h)
  | cleanup =>
    rw [hinput] at he
    obtain ⟨-, rfl⟩ := Prod.mk.inj (Option.some.inj he)
    exact .inr (.inr (.inr (.inr ⟨rfl, rfl⟩)))

end SessionHandler

namespace World

variable {w w' : World} {e : Event} {id : UInt64}

structure Inv (w : World) : Prop where
  map : MapInv w.handler.sessionMap w.usage w.turn
  length_le : w.handler.sessionMap.length ≤ w.handler.maxSessionSize
  size_pos : 0 < w.handler.maxSessionSize
  timed : w.handler.EmptyTimed
  empty : w.emptySince = w.handler.lastSessionEmptyTime
  watch : ∀ i ∈ w.handler.sessionWatchDog, 0 ≤ i

theorem start_inv (flags : Flags) (watchDog : Bool) (now : Int) : (start flags watchDog now).Inv where
  map :=
    { nonzero := List.forall_mem_nil _
      recent := List.Pairwise.nil
      before := List.forall_mem_nil _
      recorded := List.forall_mem_nil _ }
  length_le := Nat.zero_le _
  size_pos := by
    show 0 < (max 2 (min flags.restrict.maxSessionSize 128)).toNat
    omega
  timed := iff_of_true rfl rfl
  empty := rfl
  watch i hi := by
    cases watchDog with
    | false => cases hi
    | true =>
      obtain rfl := Option.some.inj hi
      refine le_max_of_le_left ?_
      decide

theorem step_eq (h : w.step e = some w') : ∃ output,
    w.handler.evalCommand e = some (output, w'.handler) ∧ w'.turn = w.turn + 1 ∧ w'.usage = w.observe output e ∧
    w'.emptySince = emptyAfter e.later w.emptySince w'.handler.sessionMap := by
  obtain ⟨⟨output, handler⟩, heval, rfl⟩ := Option.map_eq_some_iff.mp h
  exact ⟨output, heval, rfl, rfl, rfl⟩

theorem Inv.of_map (hi : w.Inv) (h : w.step e = some w')
    (hmap : MapInv w'.handler.sessionMap w'.usage w'.turn)
    (hlength : w'.handler.sessionMap.length ≤ w.handler.maxSessionSize)
    (hsize : w'.handler.maxSessionSize = w.handler.maxSessionSize)
    (hwatch : w'.handler.sessionWatchDog = w.handler.sessionWatchDog)
    (hlast : w'.handler.lastSessionEmptyTime =
      emptyAfter e.later w.handler.lastSessionEmptyTime w'.handler.sessionMap) : w'.Inv where
  map := hmap
  length_le := hsize ▸ hlength
  size_pos := hsize ▸ hi.size_pos
  timed := by
    rw [SessionHandler.EmptyTimed, hlast]
    exact SessionHandler.EmptyTimed.leave w.handler e.later w'.handler.sessionMap
  empty := by
    obtain ⟨-, -, -, -, hempty⟩ := step_eq h
    rw [hempty, hlast, hi.empty]
  watch := hwatch ▸ hi.watch

theorem observe_of_failure {output : Output} (h : output.sessionFailure = true) :
    w.observe output e = w.usage :=
  if_neg fun hand => Bool.noConfusion (h.symm.trans hand.2)

theorem observe_created {output : Output} {processId : Option Nat} (ha : w.handler.isAvailable = true)
    (hok : output.sessionFailure = false) (hinput : e.input = .createSession processId) :
    w.observe output e = Function.update w.usage output.id ⟨e.later, none, w.turn, processId⟩ := by
  rw [observe, if_pos ⟨ha, hok⟩, hinput]

theorem observe_command {output : Output} {undo : List UndoOp} (ha : w.handler.isAvailable = true)
    (hok : output.sessionFailure = false) (hinput : SessionHandler.Commands e id undo) :
    w.observe output e =
      Function.update w.usage id { w.usage id with accessed := some e.now, turn := w.turn } := by
  rw [observe, if_pos ⟨ha, hok⟩]
  rcases hinput with hinput | hinput | hinput <;> rw [hinput]

theorem observe_other {output : Output}
    (hinput : (∃ id, e.input = .deleteSession id) ∨ e.input = .cleanup) :
    w.observe output e = w.usage := by
  rw [observe]
  rcases hinput with ⟨id, hinput⟩ | hinput <;> rw [hinput] <;> exact ite_self _

theorem Inv.step (hi : w.Inv) (h : w.step e = some w') : w'.Inv := by
  obtain ⟨output, heval, hturn, husage, -⟩ := step_eq h
  have hkeep : MapInv w.handler.sessionMap w.usage w'.turn :=
    hturn ▸ hi.map.next
  have hself := @SessionHandler.EmptyTimed.emptyAfter_eq _ e.later hi.timed
  by_cases ha : w.handler.isAvailable = true
  swap
  · have hw : w.observe output e = w.usage := if_neg fun hand => ha hand.1
    rw [SessionHandler.evalCommand, if_neg ha] at heval
    obtain ⟨-, heq⟩ := Prod.mk.inj (Option.some.inj heval)
    refine hi.of_map h ?_ ?_ ?_ ?_ ?_
    all_goals rw [← heq]
    · rwa [husage, hw]
    · exact hi.length_le
    · exact hself.symm
  rcases SessionHandler.evalCommand_cases hi.length_le hi.size_pos hi.timed hi.map.nodup ha heval with
    ⟨hfail, heq⟩ | ⟨processId, hinput, hok, hcreated⟩ | ⟨id, undo, s, hinput, hok, hmem, heq⟩ |
    ⟨id, hinput, heq⟩ | ⟨hinput, heq⟩
  · rw [observe_of_failure hfail] at husage
    refine hi.of_map h ?_ ?_ ?_ ?_ ?_
    all_goals rw [heq]
    · rwa [husage]
    · exact hi.length_le
    · exact hself.symm
  · obtain ⟨⟨base, heq, hnew, hlt, hbase⟩, hne⟩ := hcreated
    have hsub : base.Sublist w.handler.sessionMap := by
      rcases hbase with rfl | ⟨last, -, -, rfl⟩
      · exact List.Sublist.refl _
      · exact erase_sublist
    rw [observe_created ha hok hinput] at husage
    refine hi.of_map h ?_ ?_ ?_ ?_ ?_
    all_goals rw [heq]
    · rw [husage, hturn]
      refine (hi.map.sublist hsub).cons hne hnew ?_ rfl
      exact List.forall_mem_cons.mpr ⟨⟨rfl, rfl⟩, fun _ h => by cases h⟩
    · exact hlt
    · exact (if_neg (List.cons_ne_nil _ _)).symm
  · rw [observe_command ha hok hinput] at husage
    have hlast : w.handler.lastSessionEmptyTime = none :=
      Option.not_isSome_iff_eq_none.mp (mt hi.timed.mpr (List.ne_nil_of_mem hmem))
    have hlt : (w.handler.sessionMap.erase id).length < w.handler.sessionMap.length :=
      List.length_filter_lt_length_iff_exists.mpr ⟨_, hmem, by simp⟩
    have hle := hi.length_le
    refine hi.of_map h ?_ ?_ ?_ ?_ ?_
    all_goals rw [heq]
    · rw [husage, hturn]
      refine (hi.map.sublist erase_sublist).cons (hi.map.nonzero _ hmem)
        (fun x hx => ne_of_mem_erase hx) ?_ rfl
      exact (hi.map.recorded _ hmem).command undo
    · show (w.handler.sessionMap.erase id).length + 1 ≤ _
      omega
    · exact hlast.trans (if_neg (List.cons_ne_nil _ _)).symm
  · rw [observe_other (.inl ⟨id, hinput⟩)] at husage
    refine hi.of_map h ?_ ?_ ?_ ?_ ?_
    all_goals rw [heq]
    · rw [husage, hturn]
      exact (hi.map.sublist erase_sublist).next
    · exact erase_sublist.length_le.trans hi.length_le
    · rfl
    · rfl
    · rfl
  · rw [observe_other (.inr hinput)] at husage
    rw [SessionHandler.cleanup_eq hi.timed hi.map.nodup] at heq
    refine hi.of_map h ?_ ?_ ?_ ?_ ?_
    all_goals rw [heq]
    · rw [husage, hturn]
      exact (hi.map.sublist List.filter_sublist).next
    · exact (List.length_filter_le _ _).trans hi.length_le
    · rfl
    · rfl
    · rfl

/-- The clock does not go back, and a `Cleanup` meets two conditions: with the timeout enabled, it
finds no session that it keeps, and it finds no session whose last command time is over the limit
only because an undo has set it back. -/
def Permitted (w : World) (e : Event) : Prop :=
  w.Clocked e ∧ (e.input = .cleanup → w.handler.isAvailable = true →
    (w.handler.flags.timeout ≤ 0 ∨ ∀ x ∈ w.handler.sessionMap, w.handler.Expires e x.2) ∧
    ∀ x ∈ w.handler.sessionMap,
      SessionHandler.isApplicationAlive e x.2 = true → w.handler.IsIdle e.now x.2 →
      x.2.context.lastCommandTime = (w.usage x.1).accessed ∨ w.IdleLimitExceeded e x.1)

theorem Inv.applicationEnded_iff (hi : w.Inv) {x : UInt64 × Session} (hx : x ∈ w.handler.sessionMap) :
    w.ApplicationEnded e x.1 ↔ SessionHandler.isApplicationAlive e x.2 = false := by
  have hprocess := (hi.map.recorded x hx _ List.mem_cons_self).2
  rw [SessionHandler.isApplicationAlive, hprocess, ApplicationEnded]
  cases (w.usage x.1).processId with
  | none => simp
  | some p => simp

theorem Inv.expires (hi : w.Inv) {x : UInt64 × Session} (hx : x ∈ w.handler.sessionMap)
    (hidle : SessionHandler.isApplicationAlive e x.2 = true → w.handler.IsIdle e.now x.2 →
      x.2.context.lastCommandTime = (w.usage x.1).accessed ∨ w.IdleLimitExceeded e x.1)
    (hexpires : w.handler.Expires e x.2) : w.ApplicationEnded e x.1 ∨ w.IdleLimitExceeded e x.1 := by
  have hcreated := (hi.map.recorded x hx _ List.mem_cons_self).1
  rcases Bool.eq_false_or_eq_true (SessionHandler.isApplicationAlive e x.2) with halive | hended
  swap
  · exact .inl ((hi.applicationEnded_iff hx).mpr hended)
  · refine .inr ?_
    have hlimit := hexpires.resolve_left (by rw [halive]; exact Bool.noConfusion)
    rcases hidle halive hlimit with htime | hlimit'
    · rw [SessionHandler.IsIdle, htime, hcreated] at hlimit
      exact hlimit
    · exact hlimit'

theorem Inv.removes (hi : w.Inv) (hok : w.Permitted e) (h : w.step e = some w')
    (hid : w.Available id) (hid' : ¬ w'.Available id) : w.Removes e id := by
  obtain ⟨output, heval, -⟩ := step_eq h
  obtain ⟨ha, x, hx, rfl⟩ := hid
  have hstays : ∀ y ∈ w'.handler.sessionMap, y.1 = x.1 → w'.handler.isAvailable = false := by
    intro y hy hyx
    exact Bool.eq_false_iff.mpr fun ha' => hid' ⟨ha', y, hy, hyx⟩
  have hgone : ∀ m, w'.handler = { w.handler with sessionMap := m } → ¬ ∃ y ∈ m, y.1 = x.1 := by
    rintro m heq ⟨y, hy, hyx⟩
    rw [heq] at hstays
    have := hstays y hy hyx
    rw [ha] at this
    cases this
  rcases SessionHandler.evalCommand_cases hi.length_le hi.size_pos hi.timed hi.map.nodup ha heval with
    ⟨-, heq⟩ | ⟨processId, hinput, -, hcreated⟩ | ⟨id, undo, s, -, -, hmem, heq⟩ |
    ⟨id, hinput, heq⟩ | ⟨hinput, heq⟩
  · exact absurd ⟨x, hx, rfl⟩ (hgone w.handler.sessionMap heq)
  · obtain ⟨⟨base, heq, -, -, hbase⟩, -⟩ := hcreated
    have hbase' : x ∉ base := by
      intro hmem
      rw [heq] at hstays
      have := hstays x (List.mem_cons_of_mem _ hmem) rfl
      rw [ha] at this
      cases this
    rw [Removes, hinput]
    rcases hbase with rfl | ⟨last, hlen, hlast, rfl⟩
    · exact absurd hx hbase'
    · have hlast' : x.1 = last.1 := by
        by_contra hne
        exact hbase' (List.mem_filter.mpr ⟨hx, decide_eq_true hne⟩)
      exact ⟨hlen, hlast' ▸ hi.map.getLast hlast⟩
  · refine absurd ?_ (hgone _ heq)
    by_cases hxid : x.1 = id
    · exact ⟨_, List.mem_cons_self, hxid.symm⟩
    · refine ⟨x, List.mem_cons_of_mem _ ?_, rfl⟩
      exact List.mem_filter.mpr ⟨hx, decide_eq_true hxid⟩
  · rw [Removes, hinput]
    by_contra hne
    rw [heq] at hstays
    have := hstays x (List.mem_filter.mpr ⟨hx, decide_eq_true (Ne.symm hne)⟩) rfl
    rw [show (w.handler.leave _ _).isAvailable = w.handler.isAvailable from rfl, ha] at this
    cases this
  · obtain ⟨htimeout, hidle⟩ := hok.2 hinput ha
    rw [Removes, hinput]
    refine hi.expires hx (hidle x hx) ?_
    by_contra hkept
    rw [SessionHandler.cleanup_eq hi.timed hi.map.nodup] at heq
    rw [heq] at hstays
    have hended := hstays x (List.mem_filter.mpr ⟨hx, decide_eq_true hkept⟩) rfl
    rcases htimeout with hle | hall
    · rw [ha, Bool.true_and, Bool.not_eq_false', decide_eq_true_eq] at hended
      exact absurd hended.1 (not_lt.mpr hle)
    · exact hkept (hall x hx)

theorem Inv.mayShutDown (hi : w.Inv) (hok : w.Permitted e) (h : w.step e = some w')
    (ha : w.handler.isAvailable = true) (ha' : w'.handler.isAvailable = false) :
    w.MayShutDown e w' := by
  obtain ⟨output, heval, -, -, hempty⟩ := step_eq h
  have hsame : w'.handler.isAvailable ≠ w.handler.isAvailable := by
    rw [ha, ha']
    exact Bool.false_ne_true
  rcases SessionHandler.evalCommand_cases hi.length_le hi.size_pos hi.timed hi.map.nodup ha heval with
    ⟨-, heq⟩ | ⟨processId, hinput, -, ⟨⟨base, heq, -⟩, -⟩⟩ | ⟨id, undo, s, -, -, -, heq⟩ |
    ⟨id, -, heq⟩ | ⟨hinput, heq⟩
  · exact absurd (congrArg SessionHandler.isAvailable heq) hsame
  · exact absurd (congrArg SessionHandler.isAvailable heq) hsame
  · exact absurd (congrArg SessionHandler.isAvailable heq) hsame
  · exact absurd (congrArg SessionHandler.isAvailable heq) hsame
  · rw [SessionHandler.cleanup_eq hi.timed hi.map.nodup] at heq
    rw [heq] at ha'
    have htimes : w.handler.TimesOut e := by
      rwa [ha, Bool.true_and, Bool.not_eq_false', decide_eq_true_eq] at ha'
    have hall : ∀ x ∈ w.handler.sessionMap, w.handler.Expires e x.2 :=
      (hok.2 hinput ha).1.resolve_left (not_le.mpr htimes.1)
    have hnone : w.handler.survivors e = [] :=
      List.filter_eq_nil_iff.mpr fun x hx => by simpa using hall x hx
    have hmap : w'.handler.sessionMap = [] := by rw [heq, ← hnone]; rfl
    refine ⟨hinput, htimes.1, hmap, ?_⟩
    rw [hempty, hmap, hi.empty, emptyAfter, if_pos rfl]
    have htime := htimes.2
    rw [hnone, emptyAfter, if_pos rfl] at htime
    have hsuspend : 0 ≤ w.handler.suspendTime e.now := SessionHandler.suspendTime_nonneg hi.watch
    cases hlast : w.handler.lastSessionEmptyTime with
    | none =>
      have := htime e.later (by rw [hlast]; rfl)
      exact ⟨e.later, rfl, by omega⟩
    | some t =>
      have := htime t (by rw [hlast]; rfl)
      exact ⟨t, rfl, by omega⟩

/-- The conditions say no more than what the handler means to do. -/
theorem Inv.permitted_iff (hi : w.Inv) (hclock : w.Clocked e) (hinput : e.input = .cleanup)
    (ha : w.handler.isAvailable = true) (h : w.step e = some w') :
    w.Permitted e ↔ (w'.handler.isAvailable = false → w.MayShutDown e w') ∧
      ∀ x ∈ w.handler.sessionMap, x ∉ w'.handler.sessionMap → w.Removes e x.1 := by
  obtain ⟨output, heval, -⟩ := step_eq h
  have heq : w'.handler = w.handler.cleanup e := by
    dsimp only [SessionHandler.evalCommand] at heval
    rw [if_pos ha, hinput] at heval
    exact (Prod.mk.inj (Option.some.inj heval)).2.symm
  rw [SessionHandler.cleanup_eq hi.timed hi.map.nodup] at heq
  have hmap : w'.handler.sessionMap = w.handler.survivors e := congrArg SessionHandler.sessionMap heq
  constructor
  · intro hok
    refine ⟨hi.mayShutDown hok h ha, fun x hx hx' => ?_⟩
    rw [Removes, hinput]
    refine hi.expires hx ((hok.2 hinput ha).2 x hx) ?_
    by_contra hkept
    rw [hmap] at hx'
    exact hx' (List.mem_filter.mpr ⟨hx, decide_eq_true hkept⟩)
  · rintro ⟨hshut, hremoves⟩
    refine ⟨hclock, fun _ _ => ⟨?_, fun x hx halive hidle => .inr ?_⟩⟩
    · by_contra hcon
      obtain ⟨hpos, hleft⟩ := not_or.mp hcon
      obtain ⟨x, hx, hkept⟩ : ∃ x ∈ w.handler.sessionMap, ¬ w.handler.Expires e x.2 := by
        simpa using hleft
      have hmem : x ∈ w.handler.survivors e := List.mem_filter.mpr ⟨hx, decide_eq_true hkept⟩
      have hne : w.handler.survivors e ≠ [] := List.ne_nil_of_mem hmem
      have htimes : w.handler.TimesOut e := by
        refine ⟨not_le.mp hpos, fun t ht => ?_⟩
        rw [emptyAfter, if_neg hne] at ht
        cases ht
      have hshutdown : w'.handler.isAvailable = false := by
        rw [heq, decide_eq_true htimes, Bool.not_true, Bool.and_false]
      have hempty := (hshut hshutdown).2.2.1
      rw [hmap] at hempty
      exact hne hempty
    · have hx' : x ∉ w'.handler.sessionMap := by
        rw [hmap]
        intro hmem
        exact of_decide_eq_true (List.mem_filter.mp hmem).2 (.inr hidle)
      have hrem := hremoves x hx hx'
      rw [Removes, hinput] at hrem
      refine hrem.resolve_left fun hended => ?_
      rw [hi.applicationEnded_iff hx, halive] at hended
      cases hended

theorem Inv.created (hi : w.Inv) {processId : Option Nat} {output : Output} {handler : SessionHandler}
    (hinput : e.input = .createSession processId) (ha : w.handler.isAvailable = true)
    (heval : w.handler.evalCommand e = some (output, handler)) (hok : output.sessionFailure = false) :
    handler.isAvailable = true ∧ ∃ x ∈ handler.sessionMap, x.1 = output.id := by
  rcases SessionHandler.evalCommand_cases hi.length_le hi.size_pos hi.timed hi.map.nodup ha heval with
    ⟨hfail, -⟩ | ⟨processId, -, -, ⟨⟨base, rfl, -⟩, -⟩⟩ | ⟨id, undo, s, hcommands, -⟩ |
    ⟨id, hdelete, -⟩ | ⟨hcleanup, -⟩
  · rw [hok] at hfail
    cases hfail
  · exact ⟨ha, _, List.mem_cons_self, rfl⟩
  · rw [SessionHandler.Commands, hinput] at hcommands
    rcases hcommands with h | h | h <;> cases h
  · rw [hinput] at hdelete
    cases hdelete
  · rw [hinput] at hcleanup
    cases hcleanup

theorem lost {ok : World → Event → Prop} {es : List Event} (hrun : Run step ok w es w')
    (hid : w.Available id) (hid' : ¬ w'.Available id) :
    ∃ as e bs u u', es = as ++ e :: bs ∧ Run step ok w as u ∧ ok u e ∧ u.step e = some u' ∧
      u.Available id ∧ ¬ u'.Available id := by
  induction hrun with
  | nil => exact absurd hid hid'
  | @snoc es u e u' hrun hok hnext ih =>
    by_cases hu : u.Available id
    · exact ⟨es, e, [], u, u', rfl, hrun, hok, hnext, hu, hid'⟩
    · obtain ⟨as, e', bs, v, v', rfl, hlost⟩ := ih hu
      exact ⟨as, e', bs ++ [e], v, v', by simp, hlost⟩

theorem Inv.run {ok : World → Event → Prop} {es : List Event} (hi : w.Inv)
    (hrun : Run World.step ok w es w') : w'.Inv :=
  hrun.inv hi fun _ _ _ hi _ h => hi.step h

/-- The handler goes as it is meant to in every run whose `Cleanup`s meet the conditions. -/
theorem sound_of_permitted (flags : Flags) (watchDog : Bool) (now : Int) :
    (start flags watchDog now).Sound Permitted := by
  intro es w hrun
  have hi : w.Inv := (start_inv flags watchDog now).run hrun
  refine ⟨⟨hi.map.nodup, hi.map.nonzero, hi.length_le⟩, ?_, ?_, ?_⟩
  · intro e w' hok hstep ha ha'
    exact hi.mayShutDown hok hstep ha ha'
  · intro e processId output handler _ hinput ha heval hok
    exact hi.created hinput ha heval hok
  · intro es' w' id hrun' hid hid'
    obtain ⟨as, e, bs, u, u', rfl, hrunu, hok, hstep, hu, hu'⟩ := lost hrun' hid hid'
    refine ⟨as, e, bs, u, u', rfl, hrunu, hstep, hu, hu', ?_⟩
    exact (hi.run hrunu).removes hok hstep hu hu'

section

def alive (input : Input) (now : Int) : Event :=
  { input, now, later := now, draws := [⟨1, by decide⟩], isProcessAlive := fun _ => true }

/-- With the timeout, the first `Cleanup` ends the server under its session. -/
def shutDownEvents : List Event :=
  [alive (.createSession none) (seconds 1), alive .cleanup (seconds 2)]

/-- A session commits at once and takes this back after 50 minutes: ten minutes later it is dropped. -/
def undoEvents : List Event :=
  [alive (.createSession none) 0, alive (.sendKey 1 [.pushUndoContext]) 0,
    alive (.sendKey 1 [.popUndoContext]) (seconds 3000), alive .cleanup (seconds 3600)]

theorem not_sound : ¬ (start { Flags.default with restricted := true } false 0).Sound Clocked ∧
    ¬ (start Flags.default false 0).Sound Clocked := by
  constructor
  · intro h
    obtain ⟨w, w', hrun, hok, hstep, ha, ha', hmap⟩ :
        ∃ w w', Run step Clocked (start { Flags.default with restricted := true } false 0)
          (shutDownEvents.take 1) w ∧ w.Clocked (alive .cleanup (seconds 2)) ∧
          w.step (alive .cleanup (seconds 2)) = some w' ∧ w.handler.isAvailable = true ∧
          w'.handler.isAvailable = false ∧ w'.handler.sessionMap.length = 1 :=
      ⟨_, _, Run.of_foldlM rfl, by decide, rfl, rfl, rfl, rfl⟩
    have hempty := ((h _ w hrun).2.1 _ w' hok hstep ha ha').2.2.1
    rw [hempty] at hmap
    cases hmap
  · intro h
    obtain ⟨w, w', hrun, hok, hstep, hx, hmap, htime, hprocess, hlimit⟩ :
        ∃ w w', Run step Clocked (start Flags.default false 0) (undoEvents.take 3) w ∧
          w.Clocked (alive .cleanup (seconds 3600)) ∧
          w.step (alive .cleanup (seconds 3600)) = some w' ∧ w.Available 1 ∧
          w'.handler.sessionMap = [] ∧ (w.usage 1).accessed = some (seconds 3000) ∧
          (w.usage 1).processId = none ∧
          w.handler.lastCommandTimeout (seconds 3600) = seconds 3600 :=
      ⟨_, _, Run.of_foldlM rfl, by decide, rfl, ⟨rfl, _, List.mem_cons_self, rfl⟩, rfl, rfl, rfl, rfl⟩
    have hx' : ¬ w'.Available 1 := by
      rintro ⟨-, x, hmem, -⟩
      rw [hmap] at hmem
      cases hmem
    obtain ⟨as, e, bs, u, u', hes, hrunu, -, -, -, hremoves⟩ :=
      (h _ w hrun).2.2.2 _ w' 1 (Run.nil.snoc hok hstep) hx hx'
    obtain ⟨rfl, rfl⟩ : as = [] ∧ e = alive .cleanup (seconds 3600) := by
      cases as with
      | nil => exact ⟨rfl, (List.cons.inj hes).1.symm⟩
      | cons a as => exact absurd (List.cons.inj hes).2.symm (by simp)
    rw [hrunu.eq_of_nil] at hremoves
    rcases hremoves with ⟨p, hp, -⟩ | hlate
    · rw [hprocess] at hp
      cases hp
    · rw [IdleLimitExceeded, htime] at hlate
      have hlate' : w.handler.lastCommandTimeout (seconds 3600) ≤ seconds 3600 - seconds 3000 := hlate
      rw [hlimit] at hlate'
      revert hlate'
      decide

end

end World

end Mozkey.Server
