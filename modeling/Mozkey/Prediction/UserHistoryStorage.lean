import Mozkey.Base.Utf8
import Mozkey.Storage.LruCacheCorrect

/-! The entries of the user history, and what `UserHistoryStorage` of
`prediction/user_history_storage.cc` keeps of them in memory and in its file.  The cache stands as
the recency list that it implements. -/

namespace Mozkey.Prediction

open Storage Base

/-- The message `UserHistory::Entry`.  The counts are `uint32` and the time is `uint64` in the
message, and none of them comes near its bound. -/
structure Entry where
  key : Bytes := []
  value : Bytes := []
  description : Bytes := []
  suggestionFreq : Nat := 0
  conversionFreqDeprecated : Nat := 0
  shownFreq : Nat := 0
  lastAccessTime : Nat := 0
  nextEntriesDeprecated : List UInt32 := []
  nextEntryFps : List UInt64 := []
  removed : Bool := false
  innerSegmentBoundary : List UInt32 := []
  allowPartialMatch : Bool := false
  attributes : UInt32 := 0
  deriving DecidableEq, Inhabited

def kDelimiter : Bytes := [0x09]

def kLruCacheSize : Nat := 10000

abbrev Dic := RecencyList UInt64 Entry

namespace Dic

/-- The cache may hold as many entries as it is made for. -/
example : (Blocks.init 64 kLruCacheSize).map Blocks.limit = some kLruCacheSize := by decide

def values (dic : Dic) : List Entry := dic.map Prod.snd

/-- `Insert` without a value: a new element has the value `stale` that it was freed with. -/
def insertKey (fp : UInt64) (stale : Entry) (dic : Dic) : Dic :=
  RecencyList.insert dic kLruCacheSize fp ((RecencyList.lookup dic fp).getD stale)

/-- What is written through a pointer to the value of `fp`. -/
def modify (fp : UInt64) (f : Entry → Entry) (dic : Dic) : Dic :=
  dic.map fun x => if x.1 = fp then (x.1, f x.2) else x

def saved (dic : Dic) : List Entry := (dic.values.take kLruCacheSize).reverse

end Dic

section fingerprints

variable (cityFingerprint : Bytes → UInt64) (legacyFingerprint32 : Bytes → UInt32)

def fingerprint (key value : Bytes) : UInt64 := cityFingerprint (key ++ kDelimiter ++ value)

def fingerprintDeprecated (key value : Bytes) : UInt32 :=
  legacyFingerprint32 (key ++ kDelimiter ++ value)

def Entry.fp (entry : Entry) : UInt64 := fingerprint cityFingerprint entry.key entry.value

/-- `old2new_fp`, where the last entry with the old fingerprint counts. -/
def old2newFp (entries : List Entry) (oldFp : UInt32) : Option UInt64 :=
  (entries.reverse.find? fun e => fingerprintDeprecated legacyFingerprint32 e.key e.value = oldFp).map
    (Entry.fp cityFingerprint)

def migrateNextEntries (entries : List Entry) : List Entry :=
  if entries.all fun e => e.nextEntriesDeprecated.isEmpty then entries
  else
    entries.map fun e =>
      { e with
        nextEntryFps := e.nextEntryFps ++
          e.nextEntriesDeprecated.filterMap (old2newFp cityFingerprint legacyFingerprint32 entries)
        nextEntriesDeprecated := [] }

/-- What `Load` keeps of an entry of the file; without result it passes over the entry. -/
def loadedEntry (entry : Entry) : Option Entry :=
  if entry.value = [] ∨ entry.key = [] then none
  else if ¬ isValidUtf8 entry.value then none
  else
    some { entry with
      suggestionFreq := max entry.suggestionFreq entry.conversionFreqDeprecated
      conversionFreqDeprecated := 0 }

def loadEntry (dic : Dic) (entry : Entry) : Dic :=
  match loadedEntry entry with
  | none => dic
  | some entry => RecencyList.insert dic kLruCacheSize (entry.fp cityFingerprint) entry

/-- The file has the entries of the cache in LRU order, as they were saved or as `Load` takes them
from it. -/
def Contains (file : List Entry) (dic : Dic) : Prop :=
  dic.values.reverse = file ∨
    dic.values.reverse.Sublist
      ((migrateNextEntries cityFingerprint legacyFingerprint32 file).filterMap loadedEntry)

end fingerprints

theorem values_insert_sublist (dic : Dic) (fp : UInt64) (entry : Entry) :
    (Dic.values (RecencyList.insert dic kLruCacheSize fp entry)).reverse.Sublist
      (dic.values.reverse ++ [entry]) := by
  have herase : (Dic.values (RecencyList.erase dic fp)).Sublist dic.values :=
    List.filter_sublist.map Prod.snd
  rw [RecencyList.insert, Dic.values, List.map_cons, List.reverse_cons]
  refine List.Sublist.append_right (List.reverse_sublist.mpr ?_) _
  split
  · exact herase
  · exact ((List.dropLast_sublist _).map Prod.snd).trans herase

theorem values_loadEntry_sublist {cityFingerprint : Bytes → UInt64} {dic : Dic} {entries : List Entry}
    (h : dic.values.reverse.Sublist (entries.filterMap loadedEntry)) (entry : Entry) :
    (Dic.values (loadEntry cityFingerprint dic entry)).reverse.Sublist
      ((entries ++ [entry]).filterMap loadedEntry) := by
  rw [List.filterMap_append, loadEntry]
  split
  · rename_i hnone
    rw [List.filterMap_cons_none hnone, List.filterMap_nil, List.append_nil]
    exact h
  · rename_i e hsome
    rw [List.filterMap_cons_some hsome, List.filterMap_nil]
    exact (values_insert_sublist dic _ e).trans (h.append_right [e])

end Mozkey.Prediction
