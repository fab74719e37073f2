import Mozkey.Storage.LruCacheCorrect

/-! `SessionHandler`: the sessions that the server keeps, and the times after which it drops a
session or ends.  Times are counted in nanoseconds, and `none` is `absl::InfinitePast()`. -/

namespace Mozkey.Server

open Storage

def seconds (n : Int) : Int := n * 10 ^ 9

/-- A time since `absl::InfinitePast()` is infinite. -/
def ElapsedAtLeast (now : Int) (since : Option Int) (d : Int) : Prop := ∀ t ∈ since, d ≤ now - t

instance (now : Int) (since : Option Int) (d : Int) : Decidable (ElapsedAtLeast now since d) :=
  inferInstanceAs (Decidable (∀ t ∈ since, d ≤ now - t))

structure Flags where
  timeout : Int
  maxSessionSize : Int
  createSessionMinInterval : Int
  watchDogInterval : Int
  lastCommandTimeout : Int
  lastCreateSessionTimeout : Int
  restricted : Bool
  deriving DecidableEq

namespace Flags

def default : Flags :=
  { timeout := -1, maxSessionSize := 64, createSessionMinInterval := 0, watchDogInterval := 180,
    lastCommandTimeout := 3600, lastCreateSessionTimeout := 300, restricted := false }

/-- What the constructor of the handler sets under `--restricted`. -/
def restrict (flags : Flags) : Flags :=
  if flags.restricted then
    { flags with timeout := 60, maxSessionSize := 8, watchDogInterval := 15,
                 lastCreateSessionTimeout := 60, lastCommandTimeout := 60 }
  else flags

def createSessionMinimumInterval (flags : Flags) : Int :=
  max 0 (min (seconds flags.createSessionMinInterval) (seconds 10))

end Flags

/-- Of the application, `IsApplicationAlive` asks for the process. -/
structure ImeContext where
  createTime : Int
  lastCommandTime : Option Int
  processId : Option Nat
  deriving DecidableEq

structure Session where
  context : ImeContext
  undoContexts : List ImeContext
  deriving DecidableEq

/-- What a command to a session may do to the stack of the undo command, whose elements are whole
contexts. -/
inductive UndoOp where
  | pushUndoContext
  | popUndoContext
  | clearUndoContext
  deriving DecidableEq

namespace Session

def kMultipleUndoMaxSize : Nat := 10

def new (createTime : Int) (processId : Option Nat) : Session :=
  { context := { createTime, lastCommandTime := none, processId }, undoContexts := [] }

def updateTime (s : Session) (now : Int) : Session :=
  { s with context := { s.context with lastCommandTime := some now } }

def applyUndo (s : Session) : UndoOp → Session
  | .pushUndoContext =>
    let pushed := s.undoContexts ++ [s.context]
    { s with undoContexts := pushed.drop (pushed.length - kMultipleUndoMaxSize) }
  | .popUndoContext =>
    match s.undoContexts.getLast? with
    | none => s
    | some context => { context, undoContexts := s.undoContexts.dropLast }
  | .clearUndoContext => { s with undoContexts := [] }

/-- `SendKey`, `TestSendKey` and `SendCommand` of the session all begin with `UpdateTime`. -/
def command (s : Session) (now : Int) (undo : List UndoOp) : Session :=
  undo.foldl applyUndo (s.updateTime now)

end Session

abbrev SessionMap := RecencyList UInt64 Session

structure SessionHandler where
  flags : Flags
  isAvailable : Bool
  maxSessionSize : Nat
  sessionMap : SessionMap
  lastSessionEmptyTime : Option Int
  lastCleanupTime : Option Int
  lastCreateSessionTime : Option Int
  sessionWatchDog : Option Int
  deriving DecidableEq

/-- A command to a session says what that session does to its undo stack. -/
inductive Input where
  | createSession (processId : Option Nat)
  | deleteSession (id : UInt64)
  | sendKey (id : UInt64) (undo : List UndoOp)
  | testSendKey (id : UInt64) (undo : List UndoOp)
  | sendCommand (id : UInt64) (undo : List UndoOp)
  | cleanup
  deriving DecidableEq

/-- A command with what the handler reads while it serves it: the clock, where the map becomes empty
or gets a session once more, the random ids and the processes. -/
structure Event where
  input : Input
  now : Int
  later : Int
  draws : List { id : UInt64 // id ≠ 0 }
  isProcessAlive : Nat → Bool

structure Output where
  id : UInt64
  sessionFailure : Bool
  deriving DecidableEq

namespace SessionHandler

/-- The constructor, for an engine that exists, and `StartWatchDog` if `watchDog` says so. -/
def new (flags : Flags) (watchDog : Bool) (now : Int) : SessionHandler :=
  let flags := flags.restrict
  { flags
    isAvailable := true
    maxSessionSize := (max 2 (min flags.maxSessionSize 128)).toNat
    sessionMap := []
    lastSessionEmptyTime := some now
    lastCleanupTime := none
    lastCreateSessionTime := none
    sessionWatchDog :=
      if watchDog then
        some (max (seconds 1) (min (seconds flags.watchDogInterval) (seconds 600)))
      else none }

variable (h : SessionHandler)

def shutdown : SessionHandler := { h with isAvailable := false }

def hasKey (id : UInt64) : Bool := (h.sessionMap.lookup id).isSome

def createNewSessionID (draws : List { id : UInt64 // id ≠ 0 }) :
    Option { id : UInt64 // id ≠ 0 } :=
  draws.find? fun id => !h.hasKey id.val

/-- A full map loses its last element, if it has one. -/
def evictOldest : Option SessionHandler :=
  if h.maxSessionSize ≤ h.sessionMap.length then
    match h.sessionMap.getLast? with
    | none => none
    | some oldestElement => some { h with sessionMap := h.sessionMap.erase oldestElement.1 }
  else some h

/-- The id of the new session, if the call is not too early. -/
def createSession (processId : Option Nat) (e : Event) : Option (Option UInt64 × SessionHandler) :=
  if ∃ t ∈ h.lastCreateSessionTime,
      0 ≤ e.now - t ∧ e.now - t < h.flags.createSessionMinimumInterval then
    some (none, h)
  else
    let h := { h with lastCreateSessionTime := some e.now }
    match h.evictOldest with
    | none => some (none, h)
    | some h =>
      (h.createNewSessionID e.draws).map fun newId =>
        let session := Session.new e.later processId
        (some newId.val,
          { h with sessionMap := h.sessionMap.insert h.maxSessionSize newId.val session
                   lastSessionEmptyTime := none })

def deleteSessionID (id : UInt64) (now : Int) : Bool × SessionHandler :=
  match h.sessionMap.lookup id with
  | none => (false, h)
  | some _ =>
    let h := { h with sessionMap := (h.sessionMap.touch id).erase id }
    if h.lastSessionEmptyTime = none ∧ h.sessionMap = [] then
      (true, { h with lastSessionEmptyTime := some now })
    else (true, h)

/-- `SendKey`, `TestSendKey` and `SendCommand` of the handler. -/
def commandSession (id : UInt64) (undo : List UndoOp) (now : Int) : Bool × SessionHandler :=
  match h.sessionMap.lookup id with
  | none => (false, h)
  | some session =>
    (true, { h with sessionMap := (id, session.command now undo) :: h.sessionMap.erase id })

/-- How long the server was suspended, from the watch dog's point of view. -/
def suspendTime (now : Int) : Int :=
  match h.lastCleanupTime, h.sessionWatchDog with
  | some t, some interval => if 2 * interval < now - t then now - t - interval else 0
  | _, _ => 0

def createSessionTimeout (now : Int) : Int :=
  h.suspendTime now +
    max (seconds 1) (min (seconds h.flags.lastCreateSessionTimeout) (seconds 600))

def lastCommandTimeout (now : Int) : Int :=
  h.suspendTime now + max (seconds 10) (min (seconds h.flags.lastCommandTimeout) (seconds 7200))

def isApplicationAlive (e : Event) (session : Session) : Bool :=
  session.context.processId.all e.isProcessAlive

def IsIdle (now : Int) (session : Session) : Prop :=
  match session.context.lastCommandTime with
  | none => h.createSessionTimeout now ≤ now - session.context.createTime
  | some t => h.lastCommandTimeout now ≤ now - t

instance (now : Int) (session : Session) : Decidable (h.IsIdle now session) :=
  match hs : session.context.lastCommandTime with
  | none => decidable_of_iff (h.createSessionTimeout now ≤ now - session.context.createTime)
      (by rw [IsIdle, hs])
  | some t => decidable_of_iff (h.lastCommandTimeout now ≤ now - t) (by rw [IsIdle, hs])

def Expires (e : Event) (session : Session) : Prop :=
  isApplicationAlive e session = false ∨ h.IsIdle e.now session

instance (e : Event) (session : Session) : Decidable (h.Expires e session) :=
  inferInstanceAs (Decidable (_ ∨ _))

def removeIds (e : Event) : List UInt64 :=
  (h.sessionMap.filter fun element => h.Expires e element.2).map Prod.fst

def cleanup (e : Event) : SessionHandler :=
  let suspendTime := h.suspendTime e.now
  let h := (h.removeIds e).foldl (fun h id => (h.deleteSessionID id e.later).2) h
  let h := if 0 < h.flags.timeout ∧
      ElapsedAtLeast e.now h.lastSessionEmptyTime (suspendTime + seconds h.flags.timeout) then
    h.shutdown else h
  { h with lastCleanupTime := some e.now }

/-- `EvalCommand`; without result where `CreateNewSessionID` needs more random ids. -/
def evalCommand (e : Event) : Option (Output × SessionHandler) :=
  if h.isAvailable then
    let ended (id : UInt64) (result : Bool × SessionHandler) : Output × SessionHandler :=
      (if result.1 then { id, sessionFailure := false } else { id := 0, sessionFailure := true },
        result.2)
    match e.input with
    | .createSession processId =>
      (h.createSession processId e).map fun (newId, h) => ended (newId.getD 0) (newId.isSome, h)
    | .deleteSession id => some (ended id (true, (h.deleteSessionID id e.later).2))
    | .sendKey id undo | .testSendKey id undo | .sendCommand id undo =>
      some (ended id (h.commandSession id undo e.now))
    | .cleanup => some (ended 0 (true, h.cleanup e))
  else some ({ id := 0, sessionFailure := false }, h)

end SessionHandler

end Mozkey.Server
