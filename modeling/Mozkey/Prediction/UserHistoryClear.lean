import Mozkey.Converter.InnerSegment
import Mozkey.Prediction.UserHistoryStorage

/-! `ClearHistoryEntry` of `prediction/user_history_predictor.cc`: an entry is marked as removed, and
so is, as far as the search finds it, what would bring its key and value back. -/

namespace Mozkey.Prediction

open Storage Base

def kPrefixFullSpace : Bytes := [0xe3, 0x80, 0x80]

def kPrefixHalfSpace : Bytes := [0x20]

def kPrefixZeroSpace : Bytes := [0xe2, 0x80, 0x8b]

def maybeNormalizePrefixSpace (str : Bytes) : Bytes :=
  match [kPrefixFullSpace, kPrefixHalfSpace].find? fun space => space.isPrefixOf str with
  | some space => kPrefixZeroSpace ++ str.drop space.length
  | none => str

/-- The first place where `pattern` stands in `str`. -/
def find (str pattern : Bytes) : Option Nat :=
  (List.range (str.length + 1)).find? fun i => pattern.isPrefixOf (str.drop i)

def eraseNextEntries (fp : UInt64) (entry : Entry) : Entry :=
  { entry with nextEntryFps := entry.nextEntryFps.filter (· ≠ fp) }

def Entry.remove (entry : Entry) : Entry :=
  { entry with suggestionFreq := 0, shownFreq := 0, removed := true }

inductive RemoveNgramChainResult where
  | done
  | tail
  | notFound
  deriving DecidableEq

section chains

variable (targetKey targetValue : Bytes)

/-- The loop over `next_entry_fps` of the entry `fp`. -/
def visitNextEntries (visit : UInt64 → Dic → Option (RemoveNgramChainResult × Dic)) (fp : UInt64) :
    List UInt64 → Dic → Option (RemoveNgramChainResult × Dic)
  | [], dic => some (.notFound, dic)
  | next :: fps, dic =>
    if (RecencyList.lookup dic next).isNone then visitNextEntries visit fp fps dic
    else
      match visit next dic with
      | none => none
      | some (.done, dic) => some (.done, dic)
      | some (.tail, dic) => some (.done, dic.modify fp (eraseNextEntries next))
      | some (.notFound, dic) => visitNextEntries visit fp fps dic

/-- `remove_ngram_chain_internal`, which may nest `fuel` calls, at the entry of `fp`; the ngrams are
those of the entries before. -/
def removeNgramChainInternal :
    Nat → List Bytes → List Bytes → UInt64 → Dic → Option (RemoveNgramChainResult × Dic)
  | 0, _, _, _, _ => none
  | fuel + 1, keyNgrams, valueNgrams, fp, dic =>
    match RecencyList.lookup dic fp with
    | none => some (.notFound, dic)
    | some entry =>
      let keyNgrams := keyNgrams ++ [entry.key]
      let valueNgrams := valueNgrams ++ [entry.value]
      let keyNgramsLen := (keyNgrams.map List.length).sum
      let valueNgramsLen := (valueNgrams.map List.length).sum
      if keyNgramsLen < targetKey.length ∧ valueNgramsLen < targetValue.length then
        visitNextEntries (removeNgramChainInternal fuel keyNgrams valueNgrams) fp entry.nextEntryFps
          dic
      else if keyNgramsLen = targetKey.length ∧ valueNgramsLen = targetValue.length then
        if keyNgrams.flatten = targetKey ∧ valueNgrams.flatten = targetValue then some (.tail, dic)
        else some (.notFound, dic)
      else some (.notFound, dic)

def removeNgramChain (fuel : Nat) (fp : UInt64) (dic : Dic) : Option (Bool × Dic) :=
  match RecencyList.lookup dic fp with
  | none => some (false, dic)
  | some entry =>
    if ¬ (entry.key.isPrefixOf targetKey ∧ entry.value.isPrefixOf targetValue) then some (false, dic)
    else
      (removeNgramChainInternal targetKey targetValue fuel [] [] fp dic).map
        fun (result, dic) => (result = .done, dic)

end chains

/-- The loop of `RemoveEntryWithInnerSegment` over the segments; the lengths are those of the
segments before. -/
def matchInnerSegments (keyStart valueStart keyEnd valueEnd : Nat) :
    List Converter.InnerSegment → Nat → Nat → Bool → Bool
  | [], _, _, _ => false
  | it :: segments, keyLen, valueLen, startMatch =>
    let startMatch := startMatch || decide (keyLen = keyStart ∧ valueLen = valueStart)
    if (keyLen + it.key.length = keyEnd ∧ valueLen + it.value.length = valueEnd) ∨
        (keyLen + it.contentKey.length = keyEnd ∧ valueLen + it.contentValue.length = valueEnd) then
      startMatch
    else
      let keyLen := keyLen + it.key.length
      let valueLen := valueLen + it.value.length
      if startMatch = false ∧ (keyStart < keyLen ∨ valueStart < valueLen) then false
      else matchInnerSegments keyStart valueStart keyEnd valueEnd segments keyLen valueLen startMatch

def matchesInnerSegment (key value : Bytes) (entry : Entry) : Bool :=
  if entry.innerSegmentBoundary = [] then false
  else
    match find entry.value value, find entry.key key with
    | some valueStart, some keyStart =>
      matchInnerSegments keyStart valueStart (keyStart + key.length) (valueStart + value.length)
        (Converter.innerSegments entry.key entry.value entry.innerSegmentBoundary) 0 0 false
    | _, _ => false

def removeEntryWithInnerSegment (key value : Bytes) (entry : Entry) : Bool × Entry :=
  if matchesInnerSegment key value entry then (true, entry.remove) else (false, entry)

/-- The function that `ClearHistoryEntry` gives to `ForEach`, at the element of `fp`. -/
def clearChainAndInnerSegment (fuel : Nat) (key value : Bytes) (state : Bool × Dic) (fp : UInt64) :
    Option (Bool × Dic) := do
  let (deleted, dic) := state
  let (removed, dic) ← removeNgramChain key value fuel fp dic
  if removed then some (true, dic)
  else
    match RecencyList.lookup dic fp with
    | none => some (deleted, dic)
    | some entry =>
      let (removed, entry) := removeEntryWithInnerSegment key value entry
      some (deleted || removed, dic.modify fp fun _ => entry)

def removeExactEntry (fp : UInt64) (dic : Dic) : Bool × Dic :=
  match RecencyList.lookup dic fp with
  | some entry => if entry.removed then (false, dic) else (true, dic.modify fp Entry.remove)
  | none => (false, dic)

def clearHistoryEntry (cityFingerprint : Bytes → UInt64) (fuel : Nat) (key value : Bytes) (dic : Dic) :
    Option (Bool × Dic) :=
  let key := maybeNormalizePrefixSpace key
  let value := maybeNormalizePrefixSpace value
  let (deleted, dic) := removeExactEntry (fingerprint cityFingerprint key value) dic
  (dic.map Prod.fst).foldlM (clearChainAndInnerSegment fuel key value) (deleted, dic)

end Mozkey.Prediction
