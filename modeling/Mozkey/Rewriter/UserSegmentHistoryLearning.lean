import Mozkey.Rewriter.UserSegmentHistory
import Mozkey.Storage.LruCacheCorrect

/-! What `UserSegmentHistoryRewriter` learns from a commit (`Finish`), what it keeps for its revert,
and what it deletes when the revert is applied. -/

namespace Mozkey.Rewriter

open Base Storage FeatureKey Lib

inductive HistoryLearningLevel where
  | defaultHistory
  | readOnly
  | noHistory
  deriving DecidableEq

/-- What the rewriter reads of a `ConversionRequest`. -/
structure RewriteRequest where
  isConversion : Bool := true
  key : Bytes := []
  precedingText : Bytes := []
  incognitoMode : Bool := false
  enableUserHistoryForConversion : Bool := true
  historyLearningLevel : HistoryLearningLevel := .defaultHistory
  kanaModifierInsensitiveConversion : Bool := false
  mixedConversion : Bool := false
  disableLegacyRewriterMode : UInt32 := 0
  deriving DecidableEq

def kDisableUserSegmentHistory : UInt32 := 1

def isNumberStyleLearningEnabled (request : RewriteRequest) : Bool :=
  request.kanaModifierInsensitiveConversion

def useInnerSegments (request : RewriteRequest) : Bool := request.mixedConversion

def isPunctuationInternal (str : Bytes) : Bool :=
  ['。', '｡', '、', '､', '，', ',', '．', '.'].any fun c => str = utf8 [c]

def kSortedBrackets : List (Char × Char) :=
  [('(', ')'), ('[', ']'), ('\x7b', '\x7d'), ('«', '»'), ('‘', '’'), ('“', '”'), ('‹', '›'),
    ('〈', '〉'), ('《', '》'), ('「', '」'), ('『', '』'), ('【', '】'), ('〔', '〕'), ('〘', '〙'),
    ('〚', '〛'), ('〝', '〟'), ('（', '）'), ('［', '］'), ('｛', '｝'), ('｢', '｣')]

def isOpenBracket (key : Bytes) : Option Bytes :=
  (kSortedBrackets.find? fun pair => utf8 [pair.1] = key).map fun pair => utf8 [pair.2]

def isNumberSegment (segment : HistorySegment) : Bool :=
  segment.key ≠ [] && segment.key.all fun c => 0x30 ≤ c && c ≤ 0x39

def isPunctuation (pos : PosData) (seg : HistorySegment) (candidate : HistoryCandidate) : Bool :=
  pos.isJapanesePunctuations candidate.lid && candidate.lid = candidate.rid &&
    isPunctuationInternal seg.key && isPunctuationInternal candidate.value

def isAvailable (request : RewriteRequest) (segments : HistorySegments) : Bool :=
  !request.incognitoMode && request.enableUserHistoryForConversion &&
    (segments.segments.all fun segment => segment.candidatesSize ≠ 0) &&
    !(request.mixedConversion &&
      request.disableLegacyRewriterMode &&& kDisableUserSegmentHistory ≠ 0)

/-- A write of `Finish` to the storage: of a trigger key, or of a feature by `Insert`. -/
inductive Write where
  | trigger (key : Bytes) (candidatesSize : Nat)
  | feature (key value : Bytes) (valueBegin valueEnd : Nat) (force : Bool)
  deriving DecidableEq

structure RevertEntry where
  key : Bytes
  value : Bytes
  valueBegin : Nat
  valueEnd : Nat
  deriving DecidableEq

structure PendingRevert where
  entries : List RevertEntry
  committedValue : Bytes
  deriving DecidableEq

def insertTriggerKey (segment : HistorySegment) : List Write :=
  if !(segment.candidate 0).has Attribute.reranked then []
  else
    [.trigger segment.key segment.candidatesSize] ++
    (if segment.key ≠ (segment.candidate 0).contentKey then
      [.trigger (segment.candidate 0).contentKey segment.candidatesSize]
    else []) ++
    match isOpenBracket segment.key with
    | some closeBracketKey => [.trigger closeBracketKey segment.candidatesSize]
    | none => []

def rememberNumberPreference (segment : HistorySegment) : List Write :=
  let candidate := segment.candidate 0
  (if candidate.style = .numberSeparatedArabicHalfwidth ∨
      candidate.style = .numberSeparatedArabicFullwidth then
    [.feature (number .defaultStyle) candidate.value 0 candidate.value.length true]
  else []) ++
  [.feature (number candidate.style) candidate.value 0 candidate.value.length true]

section remember

variable (pos : PosData) (segments : HistorySegments) (segmentIndex : Nat)

/-- The features of a key and value, the unigram last and only if asked for. -/
def rememberFeatures (key value : Bytes) (valueBegin valueEnd : Nat) (force unigram : Bool) :
    List Write :=
  ([leftRight segments segmentIndex key value, leftLeft segments segmentIndex key value,
    rightRight segments segmentIndex key value, left segments segmentIndex key value,
    right segments segmentIndex key value, leftNumber pos segments segmentIndex key value,
    rightNumber pos segments segmentIndex key value, single segments key value] ++
    if unigram then [current key value] else []).map fun feature =>
      .feature feature value valueBegin valueEnd force

def rememberFirstCandidate (valueBegin valueEnd : Nat) : List Write :=
  let seg := segments.segment segmentIndex
  let candidate := seg.candidate 0
  if isPunctuation pos seg candidate then []
  else
    let contextSensitive := segments.resized || candidate.has Attribute.contextSensitive
    let allValue := candidate.value
    let contentValue := candidate.contentValue
    let allKey := seg.key
    let contentKey := candidate.contentKey
    let forceInsert := candidate.has Attribute.reranked
    let topIndex := getDefaultCandidateIndex seg
    let isReplaceableWithTop :=
      topIndex = 0 || replaceable pos (seg.candidate topIndex) candidate
    rememberFeatures pos segments segmentIndex allKey allValue valueBegin valueEnd forceInsert
      (!contextSensitive && isReplaceableWithTop) ++
    (if allValue ≠ contentValue ∧ allKey ≠ contentKey ∧ isReplaceableWithTop then
      rememberFeatures pos segments segmentIndex contentKey contentValue valueBegin
        (valueBegin + contentValue.length) forceInsert (!contextSensitive)
    else []) ++
    match isOpenBracket contentKey, isOpenBracket contentValue with
    | some closeBracketKey, some closeBracketValue =>
      ([single segments closeBracketKey closeBracketValue] ++
        if !contextSensitive then [current closeBracketKey closeBracketValue] else []).map
        fun feature => .feature feature closeBracketValue valueBegin
          (valueBegin + closeBracketValue.length) forceInsert
    | _, _ => []

end remember

/-- The inner segments of a segment, for learning. -/
def learningSegments (segment : HistorySegment) : List HistorySegment :=
  let candidate := segment.candidate 0
  if candidate.innerSegmentBoundary = [] then [segment]
  else
    let size := Converter.innerSegmentsSize candidate.key candidate.value
      candidate.innerSegmentBoundary
    (Converter.innerSegments candidate.key candidate.value
      candidate.innerSegmentBoundary).mapIdx fun index iter =>
      { segmentType := segment.segmentType
        key := iter.key
        candidates := [{
          attributes := candidate.attributes
          key := iter.key
          contentKey := iter.contentKey
          value := iter.value
          contentValue := iter.contentValue
          lid := if index = 0 then candidate.lid
            else if index + 1 = size then candidate.rid else 0
          rid := if index = 0 then candidate.lid
            else if index + 1 = size then candidate.rid else 0 }] }

def makeLearningSegmentsFromInnerSegments (segments : HistorySegments) : HistorySegments :=
  { segments := segments.segments.flatMap learningSegments }

def isFinished (segment : HistorySegment) : Bool :=
  segment.candidatesSize ≠ 0 && segment.segmentType = .fixedValue &&
    !(segment.candidate 0).has Attribute.noHistoryLearning

section finish

variable (pos : PosData) (request : RewriteRequest) (segments : HistorySegments)

/-- The writes of `Finish` for a segment whose value begins there in the committed value. -/
def segmentWrites (i valueBegin : Nat) : List Write :=
  let segment := segments.segment i
  let valueEnd := valueBegin + (segment.candidate 0).value.length
  if isNumberSegment segment && !isNumberStyleLearningEnabled request then
    rememberNumberPreference segment
  else
    insertTriggerKey segment ++ rememberFirstCandidate pos segments i valueBegin valueEnd

/-- The loop of `Finish` over the indices of segments, after a committed value of `valueBegin`
bytes. -/
def finishLoop : List Nat → Nat → List Write
  | [], _ => []
  | i :: is, valueBegin =>
    if !isFinished (segments.segment i) then finishLoop is valueBegin
    else
      segmentWrites pos request segments i valueBegin ++
        finishLoop is (valueBegin + ((segments.segment i).candidate 0).value.length)

def finishes : Bool :=
  request.isConversion && isAvailable request segments &&
    request.historyLearningLevel = .defaultHistory

def targetSegments : HistorySegments :=
  if useInnerSegments request then makeLearningSegmentsFromInnerSegments segments else segments

def targetIndices : List Nat :=
  (List.range (targetSegments request segments).segmentsSize).drop
    (targetSegments request segments).historySegmentsSize

def finishWrites : List Write :=
  if finishes request segments then
    finishLoop pos request (targetSegments request segments) (targetIndices request segments) 0
  else []

def committedValue : Bytes :=
  (targetIndices request segments).flatMap fun i =>
    let segment := (targetSegments request segments).segment i
    if isFinished segment then (segment.candidate 0).value else []

end finish

def maybeInsertRevertEntry (key value : Bytes) (valueBegin valueEnd : Nat)
    (revertEntries : List RevertEntry) : List RevertEntry :=
  if key = [] then revertEntries
  else if revertEntries.any fun entry => entry.key = key then revertEntries
  else revertEntries ++ [⟨key, value, valueBegin, valueEnd⟩]

/-- The entries that the writes of a call of `Finish` leave for the revert. -/
def recordEntries (writes : List Write) (revertEntries : List RevertEntry) : List RevertEntry :=
  writes.foldl (fun entries write =>
    match write with
    | .trigger _ _ => entries
    | .feature key value valueBegin valueEnd _ =>
      maybeInsertRevertEntry key value valueBegin valueEnd entries) revertEntries

def insertItem (now : UInt32) (key : Bytes) (value : Vector UInt8 4) (items : List (Item 4)) :
    List (Item 4) :=
  let fp := legacyFingerprintWithSeed key kSeedValue
  ⟨fp, now, value⟩ ::
    if (items.find? fun x => x.fp = fp).isSome then items.filter fun x => x.fp ≠ fp
    else if items.length < kLruSize then items else items.dropLast

def tryInsertItem (now : UInt32) (key : Bytes) (value : Vector UInt8 4) (items : List (Item 4)) :
    List (Item 4) :=
  let fp := legacyFingerprintWithSeed key kSeedValue
  if (items.find? fun x => x.fp = fp).isSome then
    ⟨fp, now, value⟩ :: items.filter fun x => x.fp ≠ fp
  else items

def applyWrite (now : UInt32) (items : List (Item 4)) : Write → List (Item 4)
  | .trigger key candidatesSize => insertItem now key (keyTriggerValue candidatesSize) items
  | .feature key _ _ _ force =>
    if key = [] then items
    else if force then insertItem now key featureValue items
    else tryInsertItem now key featureValue items

def applyWrites : (clock : Nat → UInt32) → List Write → List (Item 4) → List (Item 4)
  | _, [], items => items
  | clock, write :: writes, items =>
    applyWrites (fun k => clock (k + 1)) writes (applyWrite (clock 0) items write)

/-- The storage as its items, `revert_cache_` and `pending_revert_`. -/
structure HistoryState where
  items : List (Item 4) := []
  revertCache : RecencyList UInt64 PendingRevert := []
  pendingRevert : Option PendingRevert := none

def kRevertCacheSize : Nat := 16

namespace HistoryState

variable (st : HistoryState)

def finish (pos : PosData) (clock : Nat → UInt32) (request : RewriteRequest)
    (segments : HistorySegments) : HistoryState :=
  let revertEntries := recordEntries (finishWrites pos request segments) []
  { st with
    items := applyWrites clock (finishWrites pos request segments) st.items
    revertCache :=
      if revertEntries ≠ [] then
        st.revertCache.insert kRevertCacheSize segments.revertId
          ⟨revertEntries, committedValue request segments⟩
      else st.revertCache }

def revert (segments : HistorySegments) : HistoryState :=
  match st.revertCache.lookup segments.revertId with
  | none => st
  | some revertData => { st with pendingRevert := some revertData }

end HistoryState

/-- The loop of `LongestCommittedPrefixSuffixSize`, from a size down. -/
def longestPrefixLoop (committedValue precedingText : Bytes) : Nat → Nat
  | 0 => 0
  | size + 1 =>
    if (committedValue.take (size + 1)).isSuffixOf precedingText then size + 1
    else longestPrefixLoop committedValue precedingText size

def longestCommittedPrefixSuffixSize (committedValue precedingText : Bytes) : Nat :=
  longestPrefixLoop committedValue precedingText committedValue.length

/-- The size of the part of a committed value that is still before the cursor. -/
def retainedSize (request : RewriteRequest) (committedValue : Bytes) : Nat :=
  let precedingText :=
    if request.key ≠ [] ∧ request.key.isSuffixOf request.precedingText then
      request.precedingText.take (request.precedingText.length - request.key.length)
    else request.precedingText
  longestCommittedPrefixSuffixSize committedValue precedingText

def revertedKeys (request : RewriteRequest) (pendingRevert : PendingRevert) : List Bytes :=
  (pendingRevert.entries.filter fun entry =>
    entry.key ≠ [] && !(entry.valueEnd ≤ retainedSize request pendingRevert.committedValue)).map
    RevertEntry.key

def HistoryState.maybeApplyPendingRevert (st : HistoryState) (request : RewriteRequest) :
    HistoryState :=
  match st.pendingRevert with
  | none => st
  | some pendingRevert =>
    { st with
      items := deleteItems kSeedValue st.items (revertedKeys request pendingRevert)
      pendingRevert := none }

end Mozkey.Rewriter
