import Mozkey.Base.Container.Trie
import Mozkey.Prediction.UserHistoryLearning

/-! The lookups of `UserHistoryPredictor`, from the visit of a stored entry to the results of `Predict`
and `Convert`.  What it asks of other components is a parameter. -/

namespace Mozkey.Prediction

open Storage Base

inductive ScriptType where
  | unknownScript
  | katakana
  | hiragana
  | kanji
  | number
  | alphabet
  | emoji
  deriving DecidableEq

inductive RequestType where
  | conversion
  | reverseConversion
  | prediction
  | suggestion
  | partialPrediction
  | partialSuggestion
  deriving DecidableEq

structure TypeCorrectedQuery where
  correction : Bytes
  scoreIsPositive : Bool
  deriving DecidableEq

structure DecodedResult where
  key : Bytes
  value : Bytes
  innerSegmentBoundary : List UInt32
  cost : Int
  lid : UInt16
  deriving DecidableEq

def DecodedResult.innerSegments (result : DecodedResult) : List Converter.InnerSegment :=
  Converter.innerSegments result.key result.value result.innerSegmentBoundary

/-- What is read of a request, of its composer and of its configuration. -/
structure LookupRequest where
  requestType : RequestType := .prediction
  key : Bytes := []
  preeditMethodIsRoman : Bool := true
  mixedConversion : Bool := false
  zeroQuerySuggestion : Bool := false
  incognitoMode : Bool := false
  noHistory : Bool := false
  useHistorySuggest : Bool := true
  useTypingCorrection : Bool := false
  typingCorrectionApplyUserHistorySize : Nat := 0
  stringForPreedit : Bytes := []
  queriesForPrediction : Bytes × List Bytes := ([], [])
  queryForConversion : Bytes := []
  historyResult : Result := {}
  maxUserHistoryPredictionCandidatesSize : Nat := 3
  maxUserHistoryPredictionCandidatesSizeForZeroQuery : Nat := 4
  userHistoryPredictionMaxCharCoverage : Nat := 0
  userHistoryPartialPrefixWcost : Int := 0
  userHistoryPartialWeakPrefixWcost : Int := 0
  displaysPlainText : Bool := false
  inputModeIsHalfAscii : Bool := false
  spaceIsHalfWidth : Bool := false
  deriving DecidableEq

/-- The hashes, `Util::GetScriptType` and what goes with it, the user dictionary, the decoder, the
supplemental model, the tables of the language model, and where the pool puts its n-th entry. -/
structure Modules where
  cityFingerprint : Bytes → UInt64
  hashOf : Bytes → UInt64
  charScriptType : Nat → ScriptType
  scriptType : Bytes → ScriptType
  firstScriptType : Bytes → ScriptType
  isHiragana : Bytes → Bool
  hiraganaToRomanji : Bytes → Bytes
  isSuppressedEntry : Bytes → Bytes → Bool
  decodeSuffix : LookupRequest → UInt16 → Bytes → Option DecodedResult
  correctComposition : LookupRequest → Option (List TypeCorrectedQuery)
  firstNameId : UInt16
  isFunctional : UInt16 → Bool
  prefixPenalty : UInt16 → Int
  transitionCost : UInt16 → UInt16 → Int
  address : Nat → Nat

def bigramBoost : UInt32 := 1

def spellingCorrection : UInt32 := 2

def weakCandidate : UInt32 := 4

def populateInnerSegmentBoundary : UInt32 := 8

def setAttribute (v : UInt32) (entry : Entry) : Entry :=
  { entry with attributes := entry.attributes ||| v }

def removeAttribute (v : UInt32) (entry : Entry) : Entry :=
  { entry with attributes := entry.attributes &&& ~~~v }

inductive MatchType where
  | noMatch
  | leftPrefixMatch
  | rightPrefixMatch
  | leftEmptyMatch
  | exactMatch
  deriving DecidableEq

def getMatchType (lstr rstr : Bytes) : MatchType :=
  if lstr = [] ∧ rstr ≠ [] then .leftEmptyMatch
  else
    let size := min lstr.length rstr.length
    if size = 0 then .noMatch
    else if lstr.take size ≠ rstr.take size then .noMatch
    else if lstr.length = rstr.length then .exactMatch
    else if lstr.length < rstr.length then .leftPrefixMatch
    else .rightPrefixMatch

def getMatchTypeFromInput (requestKey keyBase : Bytes) (keyExpanded : Option (Trie Bytes))
    (target : Bytes) : MatchType :=
  match keyExpanded with
  | none => getMatchType keyBase target
  | some keyExpanded =>
    if keyBase = [] then
      match (keyExpanded.lookUpPrefix target).1 with
      | none => .noMatch
      | some value => if value = target ∧ value = requestKey then .exactMatch else .leftPrefixMatch
    else
      let size := min keyBase.length target.length
      if size = 0 then .noMatch
      else if keyBase.take size ≠ target.take size then .noMatch
      else if target.length ≤ keyBase.length then .rightPrefixMatch
      else
        -- The rest is passed as a string that ends with a zero.
        match (keyExpanded.lookUpPrefix ((target.drop keyBase.length).takeWhile (· ≠ 0))).1 with
        | none => .noMatch
        | some value =>
          let matched := keyBase ++ value
          if matched = target ∧ matched = requestKey then .exactMatch else .leftPrefixMatch

section queue

variable (modules : Modules)

/-- An entry of the pool of a queue, and where it stands there. -/
structure PooledEntry where
  address : Nat
  entry : Entry
  deriving DecidableEq

structure QueueElement where
  score : Nat
  pooled : PooledEntry
  deriving DecidableEq

def QueueElement.Less (a b : QueueElement) : Prop :=
  a.score < b.score ∨ (a.score = b.score ∧ a.pooled.address < b.pooled.address)

instance (a b : QueueElement) : Decidable (a.Less b) := inferInstanceAs (Decidable (_ ∨ _))

structure EntryPriorityQueue where
  agenda : List QueueElement := []
  allocated : Nat := 0
  seen : List UInt64 := []
  partialEntryCount : Bytes → Nat × Nat := fun _ => (0, 0)

def kBigramBoostAsTime : Nat := 7 * 24 * 60 * 60

/-- The sum is computed with 64 bits and returned with 32. -/
def getScore (entry : Entry) : Nat :=
  (entry.lastAccessTime + (2 ^ 64 - charsLen entry.value) +
    (if entry.attributes &&& bigramBoost ≠ 0 then kBigramBoostAsTime else 0)) % 2 ^ 32

namespace EntryPriorityQueue

def push (pooled : PooledEntry) (queue : EntryPriorityQueue) : EntryPriorityQueue :=
  let hash := modules.hashOf pooled.entry.value
  if hash ∈ queue.seen then queue
  else
    { queue with
      seen := hash :: queue.seen
      agenda := { score := getScore pooled.entry, pooled } :: queue.agenda }

def top (element : QueueElement) (agenda : List QueueElement) : QueueElement :=
  agenda.foldl (fun top x => if top.Less x then x else top) element

def pop (queue : EntryPriorityQueue) : Option (Entry × EntryPriorityQueue) :=
  match queue.agenda with
  | [] => none
  | element :: agenda =>
    let top := top element agenda
    some (top.pooled.entry, { queue with agenda := (element :: agenda).erase top })

def newEntry (entry : Entry) (queue : EntryPriorityQueue) : PooledEntry × EntryPriorityQueue :=
  ({ address := modules.address queue.allocated, entry },
    { queue with allocated := queue.allocated + 1 })

def recordPartialEntry (entry : Entry) (queue : EntryPriorityQueue) : EntryPriorityQueue :=
  let (disallowed, allowed) := queue.partialEntryCount entry.key
  { queue with
    partialEntryCount := Function.update queue.partialEntryCount entry.key
      (if entry.allowPartialMatch then (disallowed, allowed + 1) else (disallowed + 1, allowed)) }

end EntryPriorityQueue

end queue

def isContentWord (modules : Modules) (value : Bytes) : Bool :=
  1 < charsLen value || modules.scriptType value ≠ .unknownScript

def Modules.startsWithValidLetter (modules : Modules) (value : Bytes) : Bool :=
  modules.firstScriptType value ∈ [ScriptType.kanji, .hiragana, .katakana, .alphabet]

def kEmojiDescription : Bytes := [0xe7, 0xb5, 0xb5, 0xe6, 0x96, 0x87, 0xe5, 0xad, 0x97]

/-- A description that is not set is empty, and an empty one does not contain the word. -/
def isEmojiEntry (entry : Entry) : Bool := (find entry.description kEmojiDescription).isSome

def kUtf8MinGooglePuaEmoji : Bytes := [0xf3, 0xbe, 0x80, 0x80]

def kUtf8MaxGooglePuaEmoji : Bytes := [0xf3, 0xbe, 0xba, 0xa0]

def isAndroidPuaEmoji (s : Bytes) : Bool :=
  s.length = 4 ∧ kUtf8MinGooglePuaEmoji ≤ s ∧ s ≤ kUtf8MaxGooglePuaEmoji

def isValidEntryIgnoringRemovedField (modules : Modules) (entry : Entry) : Bool :=
  !modules.isSuppressedEntry entry.key entry.value &&
    !(isEmojiEntry entry && isAndroidPuaEmoji entry.value) && !([0x20] : Bytes).isSuffixOf entry.key

def isValidEntry (modules : Modules) (entry : Entry) : Bool :=
  !entry.removed && isValidEntryIgnoringRemovedField modules entry

def isLowFreqFullSentenceEntry (request : LookupRequest) (entry : Entry) : Bool :=
  request.mixedConversion && 2 ≤ entry.innerSegmentBoundary.length && entry.suggestionFreq ≤ 1

def allowLowFreqFullSentenceEntryMatch (requestKey : Bytes) (mtype : MatchType) (entry : Entry) :
    Bool :=
  match mtype with
  | .exactMatch => true
  | .leftPrefixMatch =>
    (Converter.prefixKeyAndValue entry.key entry.value entry.innerSegmentBoundary
      (entry.innerSegmentBoundary.length - 1)).1.length < requestKey.length
  | _ => false

def maybePopulateInnerSegmentBoundary (innerSegmentBoundary : List UInt32) (entry : Entry) : Entry :=
  if innerSegmentBoundary = [] then entry else { entry with innerSegmentBoundary }

def appendInnerBoundary (entry : Entry) (builder : Converter.InnerSegmentBoundaryBuilder) :
    Converter.InnerSegmentBoundaryBuilder :=
  if 0 < entry.innerSegmentBoundary.length then
    entry.innerSegmentBoundary.foldl (fun builder encoded => builder.addEncoded encoded) builder
  else builder.add entry.key.length entry.value.length entry.key.length entry.value.length

def getBigramEntryLruOrder (modules : Modules) (entry prevEntry : Entry) : Option Nat :=
  prevEntry.nextEntryFps.findIdx? (· = entry.fp modules.cityFingerprint)

def hasBigramEntry (modules : Modules) (entry prevEntry : Entry) : Bool :=
  (getBigramEntryLruOrder modules entry prevEntry).isSome

/-- The entry that the links lead to: of those that are accepted, the last one with the access time of
the left-most content word, or else of the left-closest one, or else the latest. -/
def nextEntry (dic : Dic) (accepts : Entry → Bool) (leftLastAccessTime leftMostLastAccessTime : Nat)
    (nextEntryFps : List UInt64) : Option Entry :=
  let entries := (nextEntryFps.filterMap (RecencyList.lookup dic)).filter fun entry =>
    entry.key ≠ [] ∧ accepts entry
  let latest := entries.foldl (fun latest entry =>
    match latest with
    | some latest => if latest.lastAccessTime < entry.lastAccessTime then some entry else some latest
    | none => some entry) none
  let withTime (time : Nat) : Option Entry :=
    (entries.filter fun entry => entry.lastAccessTime = time).getLast?
  (withTime leftMostLastAccessTime).or ((withTime leftLastAccessTime).or latest)

/-- The variables of `GetKeyValueForExactAndRightPrefixMatch`. -/
structure JoinedEntries where
  key : Bytes
  value : Bytes
  builder : Converter.InnerSegmentBoundaryBuilder
  currentEntry : Entry
  lastEntry : Option Entry := none
  leftLastAccessTime : Nat
  leftMostLastAccessTime : Nat
  seen : List (Bytes × Bytes)

namespace JoinedEntries

variable (modules : Modules)

def ofEntry (entry : Entry) : JoinedEntries :=
  { key := entry.key, value := entry.value, builder := appendInnerBoundary entry {},
    currentEntry := entry, leftLastAccessTime := entry.lastAccessTime,
    leftMostLastAccessTime := if isContentWord modules entry.value then entry.lastAccessTime else 0,
    seen := [(entry.key, entry.value)] }

def append (next : Entry) (joined : JoinedEntries) : JoinedEntries :=
  let isContentWord := isContentWord modules next.value
  { key := joined.key ++ next.key, value := joined.value ++ next.value,
    builder := appendInnerBoundary next joined.builder, currentEntry := next, lastEntry := some next,
    leftLastAccessTime := if isContentWord then next.lastAccessTime else joined.leftLastAccessTime,
    leftMostLastAccessTime :=
      if joined.leftMostLastAccessTime = 0 ∧ isContentWord then next.lastAccessTime
      else joined.leftMostLastAccessTime,
    seen := (next.key, next.value) :: joined.seen }

/-- The loop joins entries until the key is longer than the request key. -/
def extend (dic : Dic) (requestKey : Bytes) (preferExactMatch : Bool) (joined : JoinedEntries) :
    JoinedEntries :=
  if requestKey.length < joined.key.length then joined
  else if preferExactMatch ∧ joined.key.length = requestKey.length then joined
  else
    let accepts (next : Entry) : Bool :=
      getMatchType (joined.key ++ next.key) requestKey ∉ [.noMatch, .leftEmptyMatch]
    match nextEntry dic accepts joined.leftLastAccessTime joined.leftMostLastAccessTime
        joined.currentEntry.nextEntryFps with
    | none => joined
    | some next =>
      if next.key = [] ∨ startsWithPunctuation next.value then joined
      else if (next.key, next.value) ∈ joined.seen then joined
      else extend dic requestKey preferExactMatch (joined.append modules next)
termination_by requestKey.length + 1 - joined.key.length
decreasing_by
  have hpos : 0 < next.key.length := List.length_pos_of_ne_nil (not_or.mp ‹_›).1
  rw [append, List.length_append]
  omega

end JoinedEntries

section lookups

variable (modules : Modules) (request : LookupRequest) (dic : Dic)

def addEntry (entry : Entry) (queue : EntryPriorityQueue) : PooledEntry × EntryPriorityQueue :=
  queue.newEntry modules entry

def addEntryWithNewKeyValue (key value : Bytes) (innerSegmentBoundary : List UInt32) (entry : Entry)
    (queue : EntryPriorityQueue) : PooledEntry × EntryPriorityQueue :=
  let newEntry := maybePopulateInnerSegmentBoundary innerSegmentBoundary { entry with key, value }
  let e := RecencyList.lookup dic (newEntry.fp modules.cityFingerprint)
  queue.newEntry modules { newEntry with removed := e.any Entry.removed }

/-- `is_valid_suffix`, from one of the segments of the full result on. -/
def isValidSuffix (suffixValue : Bytes) : Bytes → List Converter.InnerSegment → Bool
  | _, [] => false
  | value, it :: segments =>
    let value := value.drop it.contentValue.length
    if value = [] then false
    else if value = suffixValue then true
    else isValidSuffix suffixValue (value.drop it.functionalValue.length) segments

/-- The boundary of an entry that a decoded suffix is put behind. -/
def partialMatchBoundary (entry : Entry) (suffix : DecodedResult) :
    Converter.InnerSegmentBoundaryBuilder :=
  match suffix.innerSegments with
  | [] => {}
  | it :: segments =>
    let builder : Converter.InnerSegmentBoundaryBuilder :=
      if modules.isFunctional suffix.lid ∧ it.functionalKey = [] ∧ it.functionalValue = [] then
        Converter.InnerSegmentBoundaryBuilder.add (entry.key.length + it.key.length)
          (entry.value.length + it.value.length) entry.key.length entry.value.length {}
      else
        (Converter.InnerSegmentBoundaryBuilder.add entry.key.length entry.value.length
          entry.key.length entry.value.length {}).addSegment it
    segments.foldl (fun builder it => builder.addSegment it) builder

def kMaxSuffixLen : Nat := 10

def kPartialMatchSize : Nat := 3

/-- A key and a value for `AddEntryWithNewKeyValue`, with the bits that are set. -/
structure KeyValue where
  key : Bytes
  value : Bytes
  resultAttribute : UInt32 := 0
  innerSegmentBoundary : List UInt32

/-- The candidate of `GetKeyValueForPartialMatch`, once the entries are counted. -/
def partialMatch (requestKey : Bytes) (entry : Entry) (disallowedCount : Nat) : Option KeyValue := do
  let suffix := requestKey.drop entry.key.length
  let fullResult ← modules.decodeSuffix request 0 requestKey
  let suffixResult ← modules.decodeSuffix request modules.firstNameId suffix
  let suffixCost := suffixResult.cost + modules.prefixPenalty modules.firstNameId +
    modules.transitionCost 0 modules.firstNameId
  let resultAttribute := if 0 < disallowedCount then weakCandidate else 0
  let resultAttribute ←
    if suffixCost + request.userHistoryPartialPrefixWcost ≤ fullResult.cost ∨
        isValidSuffix suffixResult.value fullResult.value fullResult.innerSegments then
      some resultAttribute
    else if suffixCost + request.userHistoryPartialWeakPrefixWcost ≤ fullResult.cost then
      some (resultAttribute ||| weakCandidate)
    else none
  let key := entry.key ++ suffixResult.key
  let value := entry.value ++ suffixResult.value
  some
    { key, value, resultAttribute := resultAttribute ||| populateInnerSegmentBoundary,
      innerSegmentBoundary := (partialMatchBoundary modules entry suffixResult).build key value }

def getKeyValueForPartialMatch (requestKey : Bytes) (entry : Entry) (queue : EntryPriorityQueue) :
    Option KeyValue × EntryPriorityQueue :=
  if ¬ entry.key.isPrefixOf requestKey ∨ requestKey.length ≤ entry.key.length then (none, queue)
  else
    let queue := queue.recordPartialEntry entry
    if ¬ entry.allowPartialMatch then (none, queue)
    else if kMaxSuffixLen < charsLen (requestKey.drop entry.key.length) then (none, queue)
    else
      let (disallowedCount, allowedCount) := queue.partialEntryCount entry.key
      if kPartialMatchSize < allowedCount then (none, queue)
      else (partialMatch modules request requestKey entry disallowedCount, queue)

structure Match where
  result : PooledEntry
  lastEntry : Option Entry
  leftLastAccessTime : Nat
  leftMostLastAccessTime : Nat

def matchAsStored (entry : Entry) (queue : EntryPriorityQueue) : Option Match × EntryPriorityQueue :=
  let (result, queue) := addEntry modules entry queue
  let joined := JoinedEntries.ofEntry modules entry
  (some { result, lastEntry := some entry, leftLastAccessTime := joined.leftLastAccessTime,
          leftMostLastAccessTime := joined.leftMostLastAccessTime }, queue)

/-- The match of an entry with another key and value. -/
def matchKeyValue (entry : Entry) (joined : JoinedEntries) (keyValue : KeyValue)
    (queue : EntryPriorityQueue) : Option Match × EntryPriorityQueue :=
  let (result, queue) := addEntryWithNewKeyValue modules dic keyValue.key keyValue.value
    keyValue.innerSegmentBoundary entry queue
  let result := { result with entry := setAttribute keyValue.resultAttribute result.entry }
  (some { result, lastEntry := joined.lastEntry, leftLastAccessTime := joined.leftLastAccessTime,
          leftMostLastAccessTime := joined.leftMostLastAccessTime }, queue)

/-- `GetKeyValueForExactAndRightPrefixMatch`, whose other results stay when there is no key. -/
def getKeyValueForExactAndRightPrefixMatch (requestKey : Bytes) (preferExactMatch : Bool)
    (entry : Entry) : Option KeyValue × JoinedEntries :=
  let joined := JoinedEntries.extend modules dic requestKey preferExactMatch
    (JoinedEntries.ofEntry modules entry)
  if joined.key.length < requestKey.length then (none, joined)
  else
    (some { key := joined.key, value := joined.value,
            innerSegmentBoundary := joined.builder.build joined.key joined.value }, joined)

def matchEntry (requestKey : Bytes) (mtype : MatchType) (entry : Entry) (prevEntry : Option Entry)
    (exactMatchOnly : Bool) (queue : EntryPriorityQueue) : Option Match × EntryPriorityQueue :=
  let preferExactMatch := request.mixedConversion || exactMatchOnly
  match mtype with
  | .noMatch => (none, queue)
  | .leftEmptyMatch =>
    if prevEntry.any (hasBigramEntry modules entry) then matchAsStored modules entry queue
    else (none, queue)
  | .leftPrefixMatch => matchAsStored modules entry queue
  | .rightPrefixMatch =>
    let (keyValue, joined) :=
      if exactMatchOnly then (none, JoinedEntries.ofEntry modules entry)
      else getKeyValueForExactAndRightPrefixMatch modules dic requestKey preferExactMatch entry
    match keyValue with
    | some keyValue => matchKeyValue modules dic entry joined keyValue queue
    | none =>
      let (keyValue, queue) := getKeyValueForPartialMatch modules request requestKey entry queue
      match keyValue with
      | some keyValue => matchKeyValue modules dic entry joined keyValue queue
      | none => (none, queue)
  | .exactMatch =>
    if preferExactMatch then matchAsStored modules entry queue
    else
      let (keyValue, joined) :=
        getKeyValueForExactAndRightPrefixMatch modules dic requestKey preferExactMatch entry
      match keyValue with
      | some keyValue => matchKeyValue modules dic entry joined keyValue queue
      | none => (none, queue)

def kBigramLinkAsTime : Nat := 10

/-- The attribute for a bigram from the previous entry, and the access time for a zero query. -/
def boostBigram (mtype : MatchType) (entry : Entry) (prevEntry : Option Entry) (result : Entry) :
    Entry :=
  let result := removeAttribute bigramBoost result
  match prevEntry with
  | none => result
  | some prevEntry =>
    match getBigramEntryLruOrder modules entry prevEntry with
    | none => result
    | some order =>
      if mtype = .leftEmptyMatch then
        setAttribute bigramBoost
          { result with lastAccessTime := prevEntry.lastAccessTime + kBigramLinkAsTime * order }
      else setAttribute bigramBoost result

/-- The access times are at most ten seconds apart, in the 32 bits that are compared. -/
def isWithin10Seconds (next last : Entry) : Bool :=
  (((next.lastAccessTime : Int) - last.lastAccessTime).bmod (2 ^ 32)).natAbs ≤ 10

/-- The last part of `LookupEntry`: the result, joined with the entry behind it. -/
def pushJoined (requestKey : Bytes) (found : Match) (result : Entry) (queue : EntryPriorityQueue) :
    EntryPriorityQueue :=
  match found.lastEntry with
  | none => queue
  | some lastEntry =>
    if charsLen result.key < 1 ∨ 2 * charsLen requestKey < charsLen result.key then queue
    else
      match nextEntry dic (fun _ => true) found.leftLastAccessTime found.leftMostLastAccessTime
          lastEntry.nextEntryFps with
      | none => queue
      | some next =>
        if next.key ≠ [] ∧ isWithin10Seconds next lastEntry ∧ ¬ startsWithPunctuation next.value ∧
            isContentWord modules next.value then
          let key := result.key ++ next.key
          let value := result.value ++ next.value
          let builder := appendInnerBoundary next (appendInnerBoundary result {})
          let (result2, queue) :=
            addEntryWithNewKeyValue modules dic key value (builder.build key value) result queue
          if result2.entry.removed then queue else queue.push modules result2
        else queue

def lookupEntry (requestKey keyBase : Bytes) (keyExpanded : Option (Trie Bytes)) (entry : Entry)
    (prevEntry : Option Entry) (exactMatchOnly : Bool) (queue : EntryPriorityQueue) :
    Bool × EntryPriorityQueue :=
  let mtype := getMatchTypeFromInput requestKey keyBase keyExpanded entry.key
  if mtype = .noMatch then (false, queue)
  else if exactMatchOnly ∧ mtype ≠ .rightPrefixMatch ∧ mtype ≠ .exactMatch then (false, queue)
  else if ¬ exactMatchOnly ∧ isLowFreqFullSentenceEntry request entry ∧
      ¬ allowLowFreqFullSentenceEntryMatch requestKey mtype entry then (false, queue)
  else
    match matchEntry modules request dic requestKey mtype entry prevEntry exactMatchOnly queue with
    | (none, queue) => (false, queue)
    | (some found, queue) =>
      let result := boostBigram modules mtype entry prevEntry found.result.entry
      let queue :=
        if ¬ result.removed ∧ 0 < result.suggestionFreq then
          queue.push modules { found.result with entry := result }
        else queue
      if request.mixedConversion ∨ exactMatchOnly then (true, queue)
      else (true, pushJoined modules dic requestKey found result queue)

end lookups

section prediction

variable (modules : Modules) (request : LookupRequest) (dic : Dic)

def maybeRomanMisspelledKeyLoop (numAlpha numHiragana numUnknown : Nat) : List Nat → Bool
  | [] => 0 < numHiragana && ((numAlpha = 1 && numUnknown = 0) || (numAlpha = 0 && numUnknown = 1))
  | codepoint :: codepoints =>
    let type := modules.charScriptType codepoint
    if type = .hiragana ∨ codepoint = 0x30fc then
      maybeRomanMisspelledKeyLoop numAlpha (numHiragana + 1) numUnknown codepoints
    else if type = .unknownScript ∧ numUnknown = 0 then
      maybeRomanMisspelledKeyLoop numAlpha numHiragana (numUnknown + 1) codepoints
    else if type = .alphabet ∧ numAlpha = 0 then
      maybeRomanMisspelledKeyLoop (numAlpha + 1) numHiragana numUnknown codepoints
    else false

def maybeRomanMisspelledKey (key : Bytes) : Bool :=
  maybeRomanMisspelledKeyLoop modules 0 0 0 (utf8ToUtf32 key)

def getRomanMisspelledKey : Bytes :=
  if ¬ request.preeditMethodIsRoman then []
  else if request.key ≠ [] ∧ maybeRomanMisspelledKey modules request.key then
    modules.hiraganaToRomanji request.key
  else []

def isAlnum (c : UInt8) : Bool :=
  (0x30 ≤ c && c ≤ 0x39) || (0x41 ≤ c && c ≤ 0x5a) || (0x61 ≤ c && c ≤ 0x7a)

/-- The loop of `RomanFuzzyPrefixMatch`, behind characters that are the same. -/
def romanFuzzyPrefixMatchLoop : Bytes → Bytes → Bool
  | s :: str, p :: rest =>
    if p = s then romanFuzzyPrefixMatchLoop str rest
    else if s = 0x2d then !isAlnum p && (s :: rest).isPrefixOf (s :: str)
    else
      (s :: p :: rest).isPrefixOf (s :: str) ||
        match rest with
        | q :: rest => (q :: p :: rest).isPrefixOf (s :: str)
        | [] => false
  | _, _ => false

def romanFuzzyPrefixMatch (str romanKey : Bytes) : Bool :=
  if romanKey = [] ∨ str.length < romanKey.length then false
  else romanFuzzyPrefixMatchLoop str romanKey

def romanFuzzyLookupEntry (romanRequestKey : Bytes) (entry : Entry) (queue : EntryPriorityQueue) :
    Bool × EntryPriorityQueue :=
  if romanRequestKey = [] then (false, queue)
  else if ¬ romanFuzzyPrefixMatch (modules.hiraganaToRomanji entry.key) romanRequestKey then
    (false, queue)
  else
    let (result, queue) := queue.newEntry modules (setAttribute spellingCorrection entry)
    (true, queue.push modules result)

/-- The suffix of an entry that `ZeroQueryLookupEntry` offers. -/
def zeroQuerySuffix (requestKey : Bytes) (entry : Entry) (prevEntry : Option Entry) :
    Option (Bytes × Bytes) := do
  let prevEntry ← prevEntry
  guard (request.zeroQuerySuggestion ∧ requestKey = [] ∧
    prevEntry.key.length < entry.key.length ∧ prevEntry.value.length < entry.value.length ∧
    prevEntry.key.isPrefixOf entry.key ∧ prevEntry.value.isPrefixOf entry.value)
  let key := entry.key.drop prevEntry.key.length
  let value := entry.value.drop prevEntry.value.length
  guard (modules.startsWithValidLetter value)
  some (key, value)

def zeroQueryLookupEntry (requestKey : Bytes) (entry : Entry) (prevEntry : Option Entry)
    (queue : EntryPriorityQueue) : Bool × EntryPriorityQueue :=
  match zeroQuerySuffix modules request requestKey entry prevEntry with
  | none => (false, queue)
  | some (key, value) =>
    let (result, queue) :=
      queue.newEntry modules (setAttribute bigramBoost { entry with key, value })
    (true, queue.push modules result)

def getTypingCorrectedQueries : List TypeCorrectedQuery :=
  if request.typingCorrectionApplyUserHistorySize = 0 ∨ ¬ request.useTypingCorrection then []
  else
    ((modules.correctComposition request).getD []).take request.typingCorrectionApplyUserHistorySize

def lookupCorrected (entry : Entry) (prevEntry : Option Entry) :
    List TypeCorrectedQuery → EntryPriorityQueue → EntryPriorityQueue
  | [], queue => queue
  | c :: corrected, queue =>
    if c.scoreIsPositive then
      match lookupEntry modules request dic c.correction c.correction none entry prevEntry false
          queue with
      | (true, queue) => queue
      | (false, queue) => lookupCorrected entry prevEntry corrected queue
    else lookupCorrected entry prevEntry corrected queue

/-- The request key, the base key and the expanded keys. -/
def getInputKeyFromRequest : Bytes × Bytes × Option (Trie Bytes) :=
  let (queryBase, expandedSet) := request.queriesForPrediction
  (request.stringForPreedit, queryBase,
    if expandedSet = [] then none
    else some (expandedSet.foldl (fun trie key => trie.addEntry key key) Trie.empty))

/-- What `CreateEntryQueueFromHistoryForPrediction` does with an entry. -/
def visitForPrediction (prevEntry : Option Entry) (entry : Entry) (queue : EntryPriorityQueue) :
    EntryPriorityQueue :=
  let (requestKey, baseKey, expanded) := getInputKeyFromRequest request
  if ¬ isValidEntryIgnoringRemovedField modules entry then queue
  else
    match lookupEntry modules request dic requestKey baseKey expanded entry prevEntry false queue with
    | (true, queue) => queue
    | (false, queue) =>
      if isLowFreqFullSentenceEntry request entry then queue
      else
        match romanFuzzyLookupEntry modules (getRomanMisspelledKey modules request) entry queue with
        | (true, queue) => queue
        | (false, queue) =>
          match zeroQueryLookupEntry modules request requestKey entry prevEntry queue with
          | (true, queue) => queue
          | (false, queue) =>
            lookupCorrected modules request dic entry prevEntry
              (getTypingCorrectedQueries modules request) queue

/-- What `CreateEntryQueueFromHistoryForConversion` does with an entry. -/
def visitForConversion (prevEntry : Option Entry) (entry : Entry) (queue : EntryPriorityQueue) :
    EntryPriorityQueue :=
  let requestKey := request.queryForConversion
  if ¬ isValidEntryIgnoringRemovedField modules entry then queue
  else (lookupEntry modules request dic requestKey requestKey none entry prevEntry true queue).2

/-- `ForEach` over the entries, until the queue is large enough. -/
def createEntryQueue (visit : Entry → EntryPriorityQueue → EntryPriorityQueue)
    (maxEntryQueueSize : Nat) : List Entry → EntryPriorityQueue → EntryPriorityQueue
  | [], queue => queue
  | entry :: entries, queue =>
    if maxEntryQueueSize ≤ queue.agenda.length then queue
    else createEntryQueue visit maxEntryQueueSize entries (visit entry queue)

def kMaxPrevValueTrial : Nat := 500

/-- The entry of the longest context, where `size` segments are left to try. -/
def lookupContext : Nat → Option (UInt64 × Entry)
  | 0 => none
  | size + 1 =>
    let result := request.historyResult
    let (suffixKey, suffixValue) :=
      Converter.suffixKeyAndValue result.key result.value result.innerSegmentBoundary (size + 1)
    let fp := fingerprint modules.cityFingerprint suffixKey suffixValue
    match RecencyList.lookup dic fp with
    | some entry => some (fp, entry)
    | none => lookupContext size

def lookupPrevEntry : Option Entry :=
  let result := request.historyResult
  let historySize :=
    Converter.innerSegmentsSize result.key result.value result.innerSegmentBoundary
  if historySize = 0 then none
  else
    let prevEntry := lookupContext modules request dic historySize
    if prevEntry.any fun x => x.2.nextEntryFps ≠ [] then prevEntry.map Prod.snd
    else
      let prevValue := (prevEntry.map fun x => x.2.value).getD
        (Converter.suffixKeyAndValue result.key result.value result.innerSegmentBoundary 1).2
      let lruPrevEntry := (dic.take kMaxPrevValueTrial).find? fun (fp, entry) =>
        isValidEntry modules entry ∧ prevEntry.map Prod.fst ≠ some fp ∧
          0 < entry.nextEntryFps.length ∧ 2 ≤ charsLen entry.value ∧
          entry.value.isSuffixOf prevValue
      (lruPrevEntry.or prevEntry).map Prod.snd

end prediction

section results

variable (modules : Modules) (request : LookupRequest)

def startsWithAndHiragana (text start : Bytes) : Bool :=
  start.isPrefixOf text && modules.isHiragana (text.drop start.length)

/-- The loop of `MakeResults`: the entries that are chosen. -/
def chooseEntries (maxPredictionSize maxPredictionCharCoverage : Nat) :
    Nat → EntryPriorityQueue → List Entry → Nat → List Entry
  | 0, _, entries, _ => entries
  | fuel + 1, queue, entries, insertedCharCoverage =>
    if maxPredictionSize ≤ entries.length then entries
    else
      match queue.pop with
      | none => entries
      | some (entry, queue) =>
        if ¬ isValidUtf8 entry.value ∨
            entries.any (fun inserted => startsWithAndHiragana modules entry.value inserted.value) then
          chooseEntries maxPredictionSize maxPredictionCharCoverage fuel queue entries
            insertedCharCoverage
        else
          match entries.findIdx? fun inserted =>
              startsWithAndHiragana modules inserted.value entry.value with
          | some i =>
            chooseEntries maxPredictionSize maxPredictionCharCoverage fuel queue
              (entries.set i entry)
              (insertedCharCoverage - ((entries.map fun e => charsLen e.value).getD i 0) +
                charsLen entry.value)
          | none =>
            if 0 < maxPredictionCharCoverage ∧ entries ≠ [] ∧
                maxPredictionCharCoverage < insertedCharCoverage + charsLen entry.value then entries
            else
              chooseEntries maxPredictionSize maxPredictionCharCoverage fuel queue
                (entries ++ [entry]) (insertedCharCoverage + charsLen entry.value)

structure PredictionResult extends Result where
  types : UInt32 := 0
  displayValue : Bytes := []
  deriving DecidableEq

/-- The result for an entry, before `MaybeRewritePrefixSpace`. -/
def resultOfEntry (entry : Entry) : PredictionResult :=
  let has (v : UInt32) : Prop := entry.attributes &&& v ≠ 0
  { key := entry.key
    value := entry.value
    candidateAttributes := 16384 ||| 64 |||
      (if has spellingCorrection then 32 else 0) ||| (if entry.description ≠ [] then 128 else 0)
    innerSegmentBoundary :=
      if has populateInnerSegmentBoundary then entry.innerSegmentBoundary else []
    types := (if has weakCandidate then 4096 else 0) ||| (if has bigramBoost then 2 else 0)
    description := entry.description }

/-- The entries that `MakeResults` makes results of. -/
def makeEntries (maxPredictionSize maxPredictionCharCoverage : Nat) (queue : EntryPriorityQueue) :
    List Entry :=
  chooseEntries modules maxPredictionSize maxPredictionCharCoverage queue.agenda.length queue [] 0

def shouldPredict (syncing : Bool) (dic : Dic) : Bool :=
  !syncing && dic ≠ [] && !request.incognitoMode && !request.noHistory &&
    match request.requestType with
    | .conversion => request.key ≠ []
    | .reverseConversion => true
    | _ => (request.key ≠ [] || request.zeroQuerySuggestion) && request.useHistorySuggest &&
        !startsWithPunctuation request.key

/-- The entries of the results of `Predict`, on the storage that `MaybeProcessPartialRevertEntry`
leaves. -/
def predictEntries (syncing : Bool) (dic : Dic) : List Entry :=
  if ¬ shouldPredict request syncing dic then []
  else
    let prevEntry := lookupPrevEntry modules request dic
    if request.key = [] ∧ prevEntry = none then []
    else
      let isZeroQuery : Bool := request.zeroQuerySuggestion ∧ request.key = []
      let maxPredictionCharCoverage := request.userHistoryPredictionMaxCharCoverage
      let maxPredictionSize :=
        if isZeroQuery then request.maxUserHistoryPredictionCandidatesSizeForZeroQuery
        else if 0 < maxPredictionCharCoverage then 3
        else request.maxUserHistoryPredictionCandidatesSize
      makeEntries modules maxPredictionSize maxPredictionCharCoverage
        (createEntryQueue (visitForPrediction modules request dic prevEntry)
          (maxPredictionSize * 5) dic.values {})

def kMaxCandidatesSize : Nat := 5

def convertEntries (syncing : Bool) (dic : Dic) : List Entry :=
  if ¬ shouldPredict request syncing dic then []
  else
    makeEntries modules kMaxCandidatesSize 0
      (createEntryQueue
        (visitForConversion modules request dic (lookupPrevEntry modules request dic))
        kMaxCandidatesSize dic.values {})

end results

end Mozkey.Prediction
