import Mozkey.Base.Char32Iterator
import Mozkey.Prediction.UserHistoryRevert

/-! What `Revert` remembers of the committed entries, and how `MaybeProcessPartialRevertEntry` brings
back those whose values remain in front of the cursor. -/

namespace Mozkey.Prediction.Redo

open Storage Base

/-- An entry with where its key and its value begin in those of the result. -/
structure OffsetEntry where
  keyBegin : Nat := 0
  valueBegin : Nat := 0
  entry : Entry
  deriving DecidableEq

namespace OffsetEntry

def keyEnd (e : OffsetEntry) : Nat := e.keyBegin + e.entry.key.length

def valueEnd (e : OffsetEntry) : Nat := e.valueBegin + e.entry.value.length

end OffsetEntry

structure RevertEntries where
  result : Result
  historyEntry : Option Entry := none
  entries : List OffsetEntry := []
  deriving DecidableEq

/-- With `Util::GetScriptType` as far as it is asked here, and `GetReadingAlignment`. -/
structure Words extends Prediction.Words where
  isHiragana : Bytes → Bool
  readingAlignment : Bytes → Bytes → List (Bytes × Bytes)

structure State where
  dic : Dic
  revertCache : UInt32 → Option RevertEntries := fun _ => none
  lastCommittedEntries : Option RevertEntries := none

section reverts

variable (words : Words)

/-- One entry in the loop of `Revert`: the storage and `last_committed_entries->entries`. -/
def revertEntry (s : Dic × List OffsetEntry) (revertEntry : OffsetEntry) : Dic × List OffsetEntry :=
  let fp := revertEntry.entry.fp words.cityFingerprint
  match RecencyList.lookup s.1 fp with
  | none => s
  | some committedEntry =>
    (s.1.modify fp fun _ => revertEntry.entry, s.2 ++ [{ revertEntry with entry := committedEntry }])

/-- What `Revert` does to the history entry: the storage and the entry that was there. -/
def revertHistoryEntry (dic : Dic) : Option Entry → Dic × Option Entry
  | none => (dic, none)
  | some revertHistoryEntry =>
    let fp := revertHistoryEntry.fp words.cityFingerprint
    match RecencyList.lookup dic fp with
    | none => (dic, none)
    | some committedHistoryEntry =>
      (dic.modify fp fun _ => revertHistoryEntry, some committedHistoryEntry)

/-- `Revert`, where `syncing` is the answer of `IsSyncerInCriticalSection`. -/
def revert (syncing : Bool) (revertId : UInt32) (s : State) : State :=
  if syncing then s
  else
    match s.revertCache revertId with
    | none => s
    | some revertEntries =>
      let (dic, entries) := revertEntries.entries.foldl (revertEntry words) (s.dic, [])
      let (dic, historyEntry) := revertHistoryEntry words dic revertEntries.historyEntry
      { s with dic, lastCommittedEntries := some { result := revertEntries.result, historyEntry,
                                                   entries } }

end reverts

section offsets

/-- The texts that `GuessRevertedValueOffset` passes over. -/
def insertedSpaces : List Bytes := [[0x0d], [0x0a], [0x09], [0x20], kPrefixFullSpace]

/-- The loop that removes what may be inserted directly.  Every round takes a byte or more. -/
def removeInsertedSpaces : Nat → Bytes → Bytes
  | 0, leftContext => leftContext
  | fuel + 1, leftContext =>
    match insertedSpaces.find? fun suffix => suffix.isSuffixOf leftContext with
    | none => leftContext
    | some suffix => removeInsertedSpaces fuel (leftContext.take (leftContext.length - suffix.length))

/-- The loop that takes the characters of the value back.  Every round takes a byte or more. -/
def remainingLength (leftContext : Bytes) : Nat → Bytes → Nat
  | 0, _ => 0
  | fuel + 1, value =>
    match splitLastChar32 value with
    | none => 0
    | some (remain, _) =>
      if value.isSuffixOf leftContext then value.length else remainingLength leftContext fuel remain

def guessRevertedValueOffset (revertedValue leftContext : Bytes) : Nat :=
  if revertedValue = [] ∨ leftContext = [] then 0
  else
    remainingLength (removeInsertedSpaces leftContext.length leftContext) revertedValue.length
      revertedValue

end offsets

section redo

variable (words : Words) (lastCommittedEntries : RevertEntries) (actualValueEnd : Nat)

/-- The fingerprint that `update_chain` looks up; zero where there is none. -/
def prevEntryFp (newEntryKeyBegin : Nat) : UInt64 :=
  if newEntryKeyBegin = 0 then
    (lastCommittedEntries.historyEntry.map (Entry.fp words.cityFingerprint)).getD 0
  else
    ((lastCommittedEntries.entries.find? fun e => newEntryKeyBegin = e.keyEnd).map fun e =>
      e.entry.fp words.cityFingerprint).getD 0

def updateChain (newEntryKeyBegin : Nat) (newEntry : Entry) (dic : Dic) : Dic :=
  let fp := prevEntryFp words lastCommittedEntries newEntryKeyBegin
  if fp = 0 then dic
  else dic.modify fp (insertNextEntry (newEntry.fp words.cityFingerprint))

def insertEntry (newEntry : Entry) (dic : Dic) : Dic :=
  dic.modify (newEntry.fp words.cityFingerprint) fun _ => newEntry

def forceInsertEntry (newEntry : Entry) (dic : Dic) : Dic :=
  let fp := newEntry.fp words.cityFingerprint
  let entry :=
    match RecencyList.lookup dic fp with
    | some entry => { entry with suggestionFreq := entry.suggestionFreq + 1 }
    | none => { newEntry with suggestionFreq := 1 }
  RecencyList.insert dic kLruCacheSize fp { entry with lastAccessTime := newEntry.lastAccessTime }

/-- `get_key_end`: the first entry that ends there counts, and there is zero without one. -/
def getKeyEnd (valueEnd : Nat) : Nat :=
  ((lastCommittedEntries.entries.find? fun e => e.valueEnd = valueEnd).map OffsetEntry.keyEnd).getD 0

def hasEntryIn (valueBegin valueEnd : Nat) : Bool :=
  lastCommittedEntries.entries.any fun e => e.valueBegin = valueBegin ∧ e.valueEnd = valueEnd

def alignedKeyPrefix (ckey : Bytes) (prefixSize : Nat) : List (Bytes × Bytes) → Nat → Nat → Bytes
  | [], _, _ => []
  | (surface, reading) :: alignment, keyConsumed, valueConsumed =>
    if prefixSize < valueConsumed then []
    else if valueConsumed = prefixSize then ckey.take keyConsumed
    else
      alignedKeyPrefix ckey prefixSize alignment (keyConsumed + reading.length)
        (valueConsumed + surface.length)

/-- `ckey_prefix`, for an entry that the cursor is in the middle of. -/
def ckeyPrefix (e : OffsetEntry) : Bytes :=
  let cvalue := e.entry.value
  let ckey := e.entry.key
  let suffixLen := e.valueEnd - actualValueEnd
  let prefixLen := cvalue.length - suffixLen
  let actualKeyEnd := getKeyEnd lastCommittedEntries actualValueEnd
  if hasEntryIn lastCommittedEntries e.valueBegin actualValueEnd then []
  else if 0 < actualKeyEnd ∧ e.keyBegin < actualKeyEnd ∧ actualKeyEnd < e.keyEnd then
    ckey.take (ckey.length - (e.keyEnd - actualKeyEnd))
  else if suffixLen < ckey.length ∧ cvalue.drop prefixLen = ckey.drop (ckey.length - suffixLen) ∧
      words.isHiragana (cvalue.drop prefixLen) then
    ckey.take (ckey.length - suffixLen)
  else alignedKeyPrefix ckey prefixLen (words.readingAlignment cvalue ckey) 0 0

def prefixEntry (e : OffsetEntry) : Entry :=
  { e.entry with
    key := ckeyPrefix words lastCommittedEntries actualValueEnd e
    value := e.entry.value.take (e.entry.value.length - (e.valueEnd - actualValueEnd)) }

/-- One entry in the loop of `MaybeProcessPartialRevertEntry`. -/
def redoEntry (dic : Dic) (e : OffsetEntry) : Dic :=
  if ¬ isValidUtf8 e.entry.value ∨ ¬ isValidUtf8 e.entry.key then dic
  else if e.valueEnd ≤ actualValueEnd then insertEntry words e.entry dic
  else if e.valueBegin < actualValueEnd then
    let newEntry := prefixEntry words lastCommittedEntries actualValueEnd e
    if newEntry.key ≠ [] ∧ newEntry.value ≠ [] then
      updateChain words lastCommittedEntries e.keyBegin newEntry (forceInsertEntry words newEntry dic)
    else dic
  else dic

end redo

def maybeProcessPartialRevertEntry (words : Words) (precedingText : Bytes) (s : State) : State :=
  match s.lastCommittedEntries with
  | none => s
  | some lastCommittedEntries =>
    let s := { s with lastCommittedEntries := none }
    let actualValueEnd :=
      guessRevertedValueOffset lastCommittedEntries.result.value precedingText
    if actualValueEnd = 0 then s
    else
      { s with
        dic := lastCommittedEntries.entries.foldl
          (redoEntry words lastCommittedEntries actualValueEnd) s.dic }

end Mozkey.Prediction.Redo
