import Mozkey.Base.Util
import Mozkey.Prediction.UserHistoryClear

/-! What `UserHistoryPredictor` learns from a commit in `Finish`, and how `Revert` takes it back.  The
classes that it asks about words are parameters. -/

namespace Mozkey.Prediction

open Storage Base

def kMaxStringLength : Nat := 256

def kMaxNextEntriesSize : Nat := 6

def kPunctuations : List Bytes :=
  [[0xe3, 0x80, 0x82], [0x2e], [0xe3, 0x80, 0x81], [0x2c], [0xef, 0xbc, 0x9f], [0x3f],
    [0xef, 0xbc, 0x81], [0x21], [0xef, 0xbc, 0x8c], [0xef, 0xbc, 0x8e]]

def startsWithPunctuation (value : Bytes) : Bool :=
  kPunctuations.any fun x => x.isPrefixOf value

def endsWithPunctuation (value : Bytes) : Bool :=
  kPunctuations.any fun x => x.isSuffixOf value

def isAsciiSpace (c : UInt8) : Bool := c = 0x20 || (0x09 ≤ c && c ≤ 0x0d)

def stripTrailingAsciiWhitespace (str : Bytes) : Bytes := str.rdropWhile isAsciiSpace

def noSuggestLearning : UInt32 := 8

def hidesDescription : UInt32 := 32 ||| 4096 ||| 8192

structure Result where
  key : Bytes := []
  value : Bytes := []
  description : Bytes := []
  candidateAttributes : UInt32 := 0
  innerSegmentBoundary : List UInt32 := []
  deriving DecidableEq

def Result.innerSegments (result : Result) : List Converter.InnerSegment :=
  Converter.innerSegments result.key result.value result.innerSegmentBoundary

def getDescription (result : Result) : Bytes :=
  if result.candidateAttributes &&& hidesDescription ≠ 0 then [] else result.description

inductive HistoryLearningLevel where
  | defaultHistory
  | readOnly
  | noHistory
  deriving DecidableEq

structure FinishRequest where
  incognitoMode : Bool := false
  historyLearningLevel : HistoryLearningLevel := .defaultHistory
  useHistorySuggest : Bool := true
  precedingText : Bytes := []
  historyResult : Result := {}
  deriving DecidableEq

/-- `Util::GetScriptType` and `Util::GetFirstScriptType` as far as they are asked, `IsProperNoun`,
which asks the dictionary, and the hash. -/
structure Words where
  cityFingerprint : Bytes → UInt64
  isNumber : Bytes → Bool
  startsWithValidLetter : Bytes → Bool
  isProperNoun : FinishRequest → Result → Bool

structure SegmentForLearning where
  key : Bytes
  value : Bytes
  contentKey : Bytes
  contentValue : Bytes
  description : Bytes
  deriving DecidableEq

structure SegmentsForLearning where
  conversionSegmentsKey : Bytes
  conversionSegmentsValue : Bytes
  innerSegmentBoundary : List UInt32
  historySegments : List SegmentForLearning
  conversionSegments : List SegmentForLearning
  hasSpacePrefix : Bool
  allowPartialMatch : Bool
  deriving DecidableEq

structure InsertArgs where
  key : Bytes
  value : Bytes
  description : Bytes
  innerSegmentBoundary : List UInt32
  nextFps : List UInt64
  allowPartialMatch : Bool
  lastAccessTime : Nat
  deriving DecidableEq

structure RevertEntries where
  entries : List Entry := []
  historyEntry : Option Entry := none
  deriving DecidableEq

/-- The storage and the snapshots that one commit has taken so far. -/
structure Learning where
  dic : Dic
  revertEntries : RevertEntries := {}

def insertNextEntry (fp : UInt64) (entry : Entry) : Entry :=
  if fp = 0 then entry
  else
    let nextFps := entry.nextEntryFps.filter (· ≠ fp) ++ [fp]
    { entry with nextEntryFps := nextFps.drop (nextFps.length - kMaxNextEntriesSize) }

section insertions

variable (words : Words)

def InsertArgs.strip (args : InsertArgs) : InsertArgs :=
  { args with key := stripTrailingAsciiWhitespace args.key
              value := stripTrailingAsciiWhitespace args.value }

def InsertArgs.IsLearned (args : InsertArgs) : Prop :=
  isValidUtf8 args.strip.key = true ∧ isValidUtf8 args.strip.value = true ∧
    args.strip.key ≠ [] ∧ args.strip.value ≠ [] ∧ args.strip.key.length ≤ kMaxStringLength ∧
    args.strip.value.length ≤ kMaxStringLength ∧ args.description.length ≤ kMaxStringLength ∧
    ¬ (words.startsWithValidLetter args.strip.value = true ∧
      endsWithPunctuation args.strip.value = true)

instance (args : InsertArgs) : Decidable (args.IsLearned words) :=
  inferInstanceAs (Decidable (_ ∧ _))

def InsertArgs.fp (args : InsertArgs) : UInt64 :=
  fingerprint words.cityFingerprint args.strip.key args.strip.value

/-- The snapshot of an entry that does not exist before the commit. -/
def InsertArgs.absent (args : InsertArgs) : Entry :=
  { key := args.strip.key, value := args.strip.value, removed := true }

/-- What `Insert` makes of the entry, which is empty if it did not exist. -/
def InsertArgs.learn (args : InsertArgs) (entry : Entry) : Entry :=
  let entry :=
    { entry with
      key := args.strip.key
      value := args.strip.value
      removed := false
      attributes := 0
      allowPartialMatch := args.allowPartialMatch || entry.allowPartialMatch
      description := args.description
      innerSegmentBoundary :=
        if args.innerSegmentBoundary = [] then entry.innerSegmentBoundary
        else args.innerSegmentBoundary
      lastAccessTime := args.lastAccessTime
      suggestionFreq := entry.suggestionFreq + 1 }
  args.nextFps.foldl (fun entry fp => insertNextEntry fp entry) entry

def insert (s : Learning) (args : InsertArgs) : Learning :=
  if args.IsLearned words then
    let fp := args.fp words
    let entry := RecencyList.lookup s.dic fp
    { dic := RecencyList.insert s.dic kLruCacheSize fp (args.learn (entry.getD {}))
      revertEntries := { s.revertEntries with
        entries := s.revertEntries.entries ++ [entry.getD args.absent] } }
  else s

def SegmentForLearning.fp (segment : SegmentForLearning) : UInt64 :=
  fingerprint words.cityFingerprint segment.key segment.value

def SegmentForLearning.fps (segment : SegmentForLearning) : List UInt64 :=
  segment.fp words ::
    if segment.key ≠ segment.contentKey then
      [fingerprint words.cityFingerprint segment.contentKey segment.contentValue]
    else []

/-- The calls of `Insert` for one of the conversion segments. -/
def segmentInserts (lastAccessTime : Nat) (segment : SegmentForLearning) (nextFps : List UInt64)
    (allowPartialMatch : Bool) : List InsertArgs :=
  let hasContentKv : Bool := segment.contentKey ≠ segment.key ∧ segment.contentValue ≠ segment.value
  let content : List InsertArgs :=
    if hasContentKv then
      [{ key := segment.contentKey, value := segment.contentValue,
         description := segment.description, innerSegmentBoundary := [], nextFps := [],
         allowPartialMatch, lastAccessTime }]
    else []
  let innerSegmentBoundary :=
    if hasContentKv then
      Converter.buildInnerSegmentBoundary segment.key.length segment.value.length
        segment.contentKey.length segment.contentValue.length segment.key segment.value
    else []
  content ++
    [{ key := segment.key, value := segment.value, description := segment.description,
       innerSegmentBoundary, nextFps, allowPartialMatch := allowPartialMatch && !hasContentKv,
       lastAccessTime }]

/-- The loop over the conversion segments, from one of them on. -/
def segmentsInserts (lastAccessTime : Nat) : List SegmentForLearning → Bool → Bool →
    List (List UInt64) → List InsertArgs
  | [], _, _, _ => []
  | segment :: segments, allowPartialMatch, thisWasSeen, seen =>
    let nextFps := (segments.head?.map (SegmentForLearning.fps words)).getD []
    let isSeen : Bool := nextFps ∈ seen
    let nextFpsToSet := if thisWasSeen || isSeen then [] else nextFps
    segmentInserts lastAccessTime segment nextFpsToSet allowPartialMatch ++
      segmentsInserts lastAccessTime segments false isSeen (nextFps :: seen)

/-- The calls of `Insert` in `InsertHistoryForConversionSegments`, in their order. -/
def conversionInserts (lastAccessTime : Nat) (learning : SegmentsForLearning) : List InsertArgs :=
  (if 1 < learning.conversionSegments.length then
    [{ key := learning.conversionSegmentsKey, value := learning.conversionSegmentsValue,
       description := [], innerSegmentBoundary := learning.innerSegmentBoundary, nextFps := [],
       allowPartialMatch := false, lastAccessTime }]
  else []) ++
    segmentsInserts words lastAccessTime learning.conversionSegments learning.allowPartialMatch false
      ((learning.conversionSegments.head?.map (SegmentForLearning.fps words)).toList)

/-- The history segment and the conversion segment that `InsertHistoryForHistorySegments` links. -/
def linkedSegments (learning : SegmentsForLearning) :
    Option (SegmentForLearning × SegmentForLearning) := do
  let historySegment ← learning.historySegments.getLast?
  let conversionSegment ← learning.conversionSegments.head?
  guard ¬ (historySegment.value = [] ∨ conversionSegment.value = [])
  guard ¬ endsWithPunctuation historySegment.value
  let starts := startsWithPunctuation conversionSegment.value
  guard ¬ (1 < charsLen conversionSegment.value ∧ starts)
  guard ¬ (learning.hasSpacePrefix ∧ starts)
  some (historySegment, conversionSegment)

/-- The call of `Insert` for a conversion segment behind a space.  The last two arguments of the
source stand in the wrong order. -/
def spacePrefixInsert (lastAccessTime : Nat) (learning : SegmentsForLearning)
    (conversionSegment : SegmentForLearning) : Option InsertArgs :=
  if learning.hasSpacePrefix ∧ conversionSegment.key = conversionSegment.contentKey ∧
      conversionSegment.value = conversionSegment.contentValue then
    some { key := kPrefixZeroSpace ++ conversionSegment.key,
           value := kPrefixZeroSpace ++ conversionSegment.value, description := [],
           innerSegmentBoundary := [], nextFps := [],
           allowPartialMatch := lastAccessTime ≠ 0, lastAccessTime := 0 }
  else none

def historyLinks (lastAccessTime : Nat) (learning : SegmentsForLearning)
    (conversionSegment : SegmentForLearning) : List UInt64 :=
  if learning.hasSpacePrefix then
    match spacePrefixInsert lastAccessTime learning conversionSegment with
    | some args => [fingerprint words.cityFingerprint args.key args.value]
    | none => []
  else conversionSegment.fps words

def insertHistoryForHistorySegments (lastAccessTime : Nat) (learning : SegmentsForLearning)
    (s : Learning) : Learning :=
  match linkedSegments learning with
  | none => s
  | some (historySegment, conversionSegment) =>
    let fp := historySegment.fp words
    match RecencyList.lookup s.dic fp with
    | none => s
    | some historyEntry =>
      let s := { s with revertEntries := { s.revertEntries with historyEntry := some historyEntry } }
      let s := (spacePrefixInsert lastAccessTime learning conversionSegment).elim s (insert words s)
      { s with
        dic := s.dic.modify fp fun entry =>
          (historyLinks words lastAccessTime learning conversionSegment).foldl
            (fun entry next => insertNextEntry next entry) entry }

def insertHistory (lastAccessTime : Nat) (learning : SegmentsForLearning) (s : Learning) : Learning :=
  insertHistoryForHistorySegments words lastAccessTime learning
    ((conversionInserts words lastAccessTime learning).foldl (insert words) s)

end insertions

section unselected

variable (words : Words)

def kMaxHistorySize : Nat := 5

/-- The quotient is taken in double precision and rounded to the `float` that is compared with the
`float` nearest to 0.05, `13421773 / 2 ^ 28`.  What rounds to less is at most `2 ^ -58` more than the
middle between that and the `float` below. -/
def selectedRatioIsLow (suggestionFreq shownFreq : Nat) : Bool :=
  suggestionFreq * 2 ^ 58 ≤ shownFreq * (26843545 * 2 ^ 29 + 1)

def Result.fp (result : Result) : UInt64 :=
  fingerprint words.cityFingerprint result.key result.value

/-- One result in the loop of `MaybeRemoveUnselectedHistory`. -/
def showResult (s : Learning) (result : Result) : Learning :=
  let fp := result.fp words
  match RecencyList.lookup s.dic fp with
  | none => s
  | some entry =>
    let shown := { entry with shownFreq := entry.shownFreq + 1 }
    if selectedRatioIsLow shown.suggestionFreq shown.shownFreq then
      { dic := s.dic.modify fp fun _ => shown.remove
        revertEntries := { s.revertEntries with
          entries := s.revertEntries.entries ++ [{ shown with shownFreq := shown.shownFreq - 1 }] } }
    else { s with dic := s.dic.modify fp fun _ => shown }

def maybeRemoveUnselectedHistory (results : List Result) (s : Learning) : Learning :=
  (results.take kMaxHistorySize).foldl (showResult words) s

end unselected

def getSpacePrefix (precedingText : Bytes) : Bytes :=
  ([kPrefixHalfSpace, kPrefixFullSpace].find? fun space => space.isSuffixOf precedingText).getD []

def makeLearningSegments (result : Result) : List SegmentForLearning :=
  let isSingleSegment : Bool :=
    (if result.key = [] ∧ result.value = [] then 0
    else max 1 result.innerSegmentBoundary.length) ≤ 1
  result.innerSegments.map fun it =>
    { key := it.key, value := it.value, contentKey := it.contentKey, contentValue := it.contentValue,
      description := if isSingleSegment then getDescription result else [] }

def makeHistoryLearningSegments (request : FinishRequest) (dic : Dic) :
    List SegmentForLearning × Bool :=
  let segments := makeLearningSegments request.historyResult
  let spacePrefix := getSpacePrefix request.precedingText
  if segments ≠ [] ∨ spacePrefix = [] then (segments, spacePrefix ≠ [])
  else
    let precedingText :=
      request.precedingText.take (request.precedingText.length - spacePrefix.length)
    match dic.values with
    | [] => (segments, false)
    | head :: rest =>
      if ¬ head.value.isSuffixOf precedingText then (segments, false)
      else if rest.head?.any fun next => next.value.isPrefixOf head.value then (segments, false)
      else
        (segments ++ [{ key := head.key, value := head.value, contentKey := head.key,
                        contentValue := head.value, description := [] }], true)

/-- `MakeLearningSegments` for the results that begin with `result`. -/
def makeSegmentsForLearning (words : Words) (request : FinishRequest) (dic : Dic) (result : Result) :
    SegmentsForLearning :=
  let (historySegments, hasSpacePrefix) := makeHistoryLearningSegments request dic
  { conversionSegmentsKey := result.key, conversionSegmentsValue := result.value,
    innerSegmentBoundary := result.innerSegmentBoundary, historySegments,
    conversionSegments := makeLearningSegments result, hasSpacePrefix,
    allowPartialMatch := words.isProperNoun request result }

def isPrivacySensitive (words : Words) (result : Result) : Bool :=
  result.innerSegmentBoundary.length ≤ 1 && result.value.all (· < 0x80) && words.isNumber result.key

/-- `Finish` gets to the point where it learns from the first result. -/
def Accepts (words : Words) (request : FinishRequest) (syncing : Bool) (result : Result) : Prop :=
  request.incognitoMode = false ∧ request.historyLearningLevel = .defaultHistory ∧
    request.useHistorySuggest = true ∧ syncing = false ∧
    result.candidateAttributes &&& noSuggestLearning = 0 ∧ isPrivacySensitive words result = false

instance (words : Words) (request : FinishRequest) (syncing : Bool) (result : Result) :
    Decidable (Accepts words request syncing result) := inferInstanceAs (Decidable (_ ∧ _))

/-- The storage, and what `revert_cache_` answers for an id. -/
structure HistoryState where
  dic : Dic
  revertCache : UInt32 → Option RevertEntries

/-- What `Finish` does to the storage once it has accepted the results. -/
def learn (words : Words) (request : FinishRequest) (now : Nat) (result : Result)
    (results : List Result) (dic : Dic) : Learning :=
  maybeRemoveUnselectedHistory words (result :: results)
    (insertHistory words now (makeSegmentsForLearning words request dic result) { dic })

/-- `Finish`, where `syncing` is the answer of `IsSyncerInCriticalSection`. -/
def finish (words : Words) (request : FinishRequest) (syncing : Bool) (now : Nat)
    (results : List Result) (revertId : UInt32) (s : HistoryState) : HistoryState :=
  match results with
  | [] => s
  | result :: results =>
    if Accepts words request syncing result then
      let learned := learn words request now result results s.dic
      { dic := learned.dic
        revertCache :=
          if learned.revertEntries.entries = [] then s.revertCache
          else Function.update s.revertCache revertId (some learned.revertEntries) }
    else s

/-- A snapshot is written back to where its key and its value lead. -/
def revertEntry (words : Words) (dic : Dic) (entry : Entry) : Dic :=
  dic.modify (entry.fp words.cityFingerprint) fun _ => entry

def applyRevert (words : Words) (revertEntries : RevertEntries) (dic : Dic) : Dic :=
  let dic := revertEntries.entries.foldl (revertEntry words) dic
  revertEntries.historyEntry.elim dic (revertEntry words dic)

def revert (words : Words) (syncing : Bool) (revertId : UInt32) (s : HistoryState) : HistoryState :=
  if syncing then s
  else
    match s.revertCache revertId with
    | none => s
    | some revertEntries => { s with dic := applyRevert words revertEntries s.dic }

end Mozkey.Prediction
