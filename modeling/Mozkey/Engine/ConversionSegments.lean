import Mozkey.Base.Util
import Mozkey.Converter.Segments
import Mozkey.Engine.CandidateList
import Mozkey.Engine.EngineConverter

/-! The segments, the focus and the candidate list of `engine/engine_converter.cc`.  The converter
below it is a parameter of every operation.  An operation without result fails a `CHECK` or leaves
the bounds of a container. -/

namespace Mozkey.Engine

open Base Storage
open Session (ConverterState TransliterationType)

/-- `converter::Candidate`, as far as the converter of the engine reads it. -/
structure SegmentCandidate where
  key : Bytes := []
  value : Bytes := []
  contentKey : Bytes := []
  contentValue : Bytes := []
  lid : UInt16 := 0
  rid : UInt16 := 0
  attributes : UInt32 := 0
  consumedKeySize : Nat := 0
  innerSegmentBoundary : List UInt32 := []
  deriving DecidableEq

structure ConversionSegment where
  segmentType : Converter.SegmentType := .free
  key : Bytes := []
  candidates : List SegmentCandidate := []
  metaCandidates : List SegmentCandidate := []
  deriving DecidableEq

namespace ConversionSegment

def keyLen (segment : ConversionSegment) : Nat := charsLen segment.key

/-- An index that is not one of the meta candidates is taken for the first one. -/
def metaCandidate (segment : ConversionSegment) (i : Nat) : Option SegmentCandidate :=
  if segment.metaCandidates.length ≤ i then segment.metaCandidates[0]? else segment.metaCandidates[i]?

/-- A negative index is one of the meta candidates. -/
def candidate (segment : ConversionSegment) (i : Int) : Option SegmentCandidate :=
  if i < 0 then segment.metaCandidate (-i - 1).toNat else segment.candidates[i.toNat]?

end ConversionSegment

def spellingCorrection : UInt32 := 32

def commandCandidate : UInt32 := 1024

def partiallyKeyConsumed : UInt32 := 2048

section attributes

def halfWidth : UInt32 := 1

def fullWidth : UInt32 := 2

def ascii : UInt32 := 4

def hiragana : UInt32 := 8

def katakana : UInt32 := 16

def upper : UInt32 := 32

def lower : UInt32 := 64

def capitalized : UInt32 := 128

def asis : UInt32 := 256

def has (attributes v : UInt32) : Bool := attributes &&& v ≠ 0

def getT13nAttributes : TransliterationType → UInt32
  | .hiragana => hiragana
  | .fullKatakana => fullWidth ||| katakana
  | .halfAscii => halfWidth ||| ascii ||| asis
  | .halfAsciiUpper => halfWidth ||| ascii ||| upper
  | .halfAsciiLower => halfWidth ||| ascii ||| lower
  | .halfAsciiCapitalized => halfWidth ||| ascii ||| capitalized
  | .fullAscii => fullWidth ||| ascii ||| asis
  | .fullAsciiUpper => fullWidth ||| ascii ||| upper
  | .fullAsciiLower => fullWidth ||| ascii ||| lower
  | .fullAsciiCapitalized => fullWidth ||| ascii ||| capitalized
  | .halfKatakana => halfWidth ||| katakana

def transliterationTypeArray : List TransliterationType :=
  [.hiragana, .fullKatakana, .halfAscii, .halfAsciiUpper, .halfAsciiLower, .halfAsciiCapitalized,
    .fullAscii, .fullAsciiUpper, .fullAsciiLower, .fullAsciiCapitalized, .halfKatakana]

end attributes

namespace Candidate

def addAttributes (v : UInt32) : Candidate → Candidate
  | leaf id attributes => leaf id (attributes ||| v)
  | sub id attributes list => sub id (attributes ||| v) list

end Candidate

/-- A list to which candidates are added, with the fingerprints of their values. -/
structure ListBuilder where
  state : ListState
  candidates : List Candidate := []
  addedCandidates : List (UInt64 × Int) := []

namespace ListBuilder

variable (fingerprint : Bytes → UInt64)

def addCandidateWithAttributes (id : Int) (value : Bytes) (attributes : UInt32)
    (builder : ListBuilder) : ListBuilder :=
  match builder.addedCandidates.lookup (fingerprint value) with
  | some altId =>
    { builder with
      state := { builder.state with alternativeIds := (id, altId) :: builder.state.alternativeIds }
      candidates := builder.candidates.map fun candidate =>
        if candidate.id = altId then candidate.addAttributes attributes else candidate }
  | none =>
    { builder with
      candidates := builder.candidates ++ [.leaf id attributes]
      addedCandidates := (fingerprint value, id) :: builder.addedCandidates }

def addCandidates (segment : ConversionSegment) (builder : ListBuilder) : ListBuilder :=
  segment.candidates.zipIdx.foldl (fun builder (candidate, i) =>
    builder.addCandidateWithAttributes fingerprint i candidate.value 0) builder

def addTransliterations (segment : ConversionSegment) (builder : ListBuilder) : ListBuilder :=
  transliterationTypeArray.zipIdx.foldl (fun builder (type, i) =>
    builder.addCandidateWithAttributes fingerprint (-((i : Int) + 1))
      (segment.metaCandidates.getD i {}).value (getT13nAttributes type)) builder

def list (builder : ListBuilder) : CandidateList := .mk builder.state builder.candidates

end ListBuilder

/-- What `UpdateCandidateList` makes of an emptied list. -/
def candidateListOf (fingerprint : Bytes → UInt64) (pageSize : Nat) (useCascadingWindow : Bool)
    (segment : ConversionSegment) : CandidateList :=
  let builder := ListBuilder.addCandidates fingerprint segment { state := { pageSize, rotate := true } }
  if segment.metaCandidates = [] then builder.list
  else if useCascadingWindow then
    let transliterations := ListBuilder.addTransliterations fingerprint segment { state := {} }
    .mk builder.state (builder.candidates ++ [.sub 0 0 transliterations.list])
  else (builder.addTransliterations fingerprint segment).list

namespace CandidateList

mutual

def focusedId : CandidateList → Int
  | mk state candidates => focusedIdAt candidates state.focusedIndex

def focusedIdAt : List Candidate → Nat → Int
  | [], _ => 0
  | .leaf id _ :: _, 0 => id
  | .sub _ _ list :: _, 0 => focusedId list
  | _ :: candidates, index + 1 => focusedIdAt candidates index

end

/-- The index that `UpdateSelectedCandidateIndex` takes. -/
def selectedIndex (list : CandidateList) : Int :=
  match list.candidates[list.focusedIndex]? with
  | some (.sub _ _ sublist) => -1 - sublist.focusedIndex
  | _ => list.focusedIndex

def deepestAttributes (list : CandidateList) : UInt32 :=
  (list.getDeepestFocusedCandidate.map Candidate.attributes).getD 0

def moveNextAttributes (attributes : UInt32) (list : CandidateList) : CandidateList :=
  (list.moveNext.2.moveToAttributes attributes).2

/-- The loop of `CycleAlphaCase` when the current case is not as it was typed. -/
def cycleAlphaCaseLoop (baseQueryAttr : UInt32) : Nat → UInt32 → CandidateList → CandidateList
  | 0, _, list => list
  | rounds + 1, currentAttr, list =>
    let queryAttr := baseQueryAttr |||
      (if has currentAttr upper then lower
      else if has currentAttr lower then capitalized
      else if has currentAttr capitalized then asis
      else upper)
    let list := list.moveNextAttributes queryAttr
    let newAttr := list.deepestAttributes
    let sumAttr := newAttr ||| currentAttr
    if has queryAttr asis ∨ ¬ has newAttr asis then list
    else if has sumAttr asis ∧ has sumAttr upper ∧ has sumAttr lower ∧ has sumAttr capitalized then
      list
    else cycleAlphaCaseLoop baseQueryAttr rounds newAttr list

def cycleAlphaCase (queryAttr : UInt32) (list : CandidateList) : CandidateList :=
  let currentAttr := list.deepestAttributes
  if has currentAttr asis then
    list.moveNextAttributes (queryAttr ||| (if has currentAttr upper then lower else upper))
  else cycleAlphaCaseLoop queryAttr 3 currentAttr list

end CandidateList

/-- `ConverterInterface`, in the conversion segments only.  `rerank` is the contextual reranker. -/
structure ConverterInterface where
  startConversion : List ConversionSegment → Bool × List ConversionSegment
  rerank : List ConversionSegment → List ConversionSegment
  startPrediction : List ConversionSegment → Bool × List ConversionSegment
  startPredictionWithPreviousSuggestion :
    ConversionSegment → List ConversionSegment → Bool × List ConversionSegment
  prependCandidates : ConversionSegment → List ConversionSegment → List ConversionSegment
  finishConversion : List ConversionSegment → List ConversionSegment
  commitSegmentValue : Nat → Int → List ConversionSegment → Bool × List ConversionSegment
  commitPartialSuggestionSegmentValue :
    Nat → Int → List ConversionSegment → Bool × List ConversionSegment
  focusSegmentValue : Nat → Int → List ConversionSegment → Bool × List ConversionSegment
  commitSegments : List Int → List ConversionSegment → Bool × List ConversionSegment
  resizeSegment : Nat → Int → List ConversionSegment → Bool × List ConversionSegment
  resizeSegments : Nat → List UInt8 → List ConversionSegment → Bool × List ConversionSegment

/-- What an operation gets: the converter, and what it reads of the request, the configuration, the
preferences and the composer. -/
structure Call where
  converter : ConverterInterface
  mixedConversion : Bool := false
  zeroQuerySuggestion : Bool := false
  isA11yTalkbackEnabled : Bool := false
  useCascadingWindow : Bool := true
  shortcutsSize : Nat := 9
  requestSuggestion : Bool := true
  isPasswordField : Bool := false
  cursorIsInside : Bool := false
  composerLength : Nat := 0
  containsKana : Bytes → Bool := fun _ => false
  stringForPreedit : Bytes := []

inductive RequestType where
  | conversion
  | prediction
  | suggestion
  | partialPrediction
  | partialSuggestion
  deriving DecidableEq

structure EngineConverter where
  state : ConverterState := .composition
  segments : List ConversionSegment := []
  segmentIndex : Nat := 0
  previousSuggestions : ConversionSegment := {}
  candidateList : CandidateList := .mk { rotate := true } []
  candidateListFocused : Bool := false
  candidateListVisible : Bool := false
  selectedCandidateIndices : List Int := []
  requestType : RequestType := .conversion

namespace EngineConverter

variable (fingerprint : Bytes → UInt64) (call : Call)

def resetState (s : EngineConverter) : EngineConverter :=
  { s with
    state := .composition
    segmentIndex := 0
    previousSuggestions := {}
    candidateListVisible := false
    candidateList := .mk { pageSize := s.candidateList.state.pageSize, rotate := true } []
    candidateListFocused := false
    selectedCandidateIndices := [] }

def updateCandidateList (s : EngineConverter) : Option EngineConverter :=
  match s.segments[s.segmentIndex]? with
  | none => none
  | some segment =>
    some { s with
      candidateList := candidateListOf fingerprint s.candidateList.state.pageSize
        call.useCascadingWindow segment
      candidateListFocused :=
        s.requestType ∉ [.suggestion, .partialSuggestion, .partialPrediction]
      candidateListVisible := s.candidateListVisible ||
        (segment.candidates.take 10).any fun candidate => has candidate.attributes spellingCorrection }

def initializeSelectedCandidateIndices (s : EngineConverter) : EngineConverter :=
  { s with selectedCandidateIndices := List.replicate s.segments.length 0 }

/-- `selected_candidate_indices_[segment_index_] = index`. -/
def setSelectedCandidateIndex (index : Int) (s : EngineConverter) : Option EngineConverter :=
  if s.segmentIndex < s.selectedCandidateIndices.length then
    some { s with
      selectedCandidateIndices := s.selectedCandidateIndices.set s.segmentIndex index }
  else none

def updateSelectedCandidateIndex (s : EngineConverter) : Option EngineConverter :=
  s.setSelectedCandidateIndex s.candidateList.selectedIndex

def getCandidateIndexForConverter (s : EngineConverter) (segmentIndex : Nat) : Int :=
  if segmentIndex ≠ s.segmentIndex then 0 else s.candidateList.focusedId

def selectedCandidate (s : EngineConverter) (i : Nat) : Option SegmentCandidate :=
  s.segments[i]?.bind fun segment => segment.candidate (s.getCandidateIndexForConverter i)

/-- The answer of `MaybePerformCommandCandidate` for the first segments. -/
def performsCommandCandidate (s : EngineConverter) (size : Nat) : Bool :=
  (List.range size).any fun i =>
    (s.selectedCandidate i).any fun candidate => has candidate.attributes commandCandidate

def segmentFocus (s : EngineConverter) : EngineConverter :=
  { s with
    segments := (call.converter.focusSegmentValue s.segmentIndex
      (s.getCandidateIndexForConverter s.segmentIndex) s.segments).2 }

def cancel (s : EngineConverter) : EngineConverter := { s.resetState with segments := [] }

def convert (s : EngineConverter) : Option (Bool × EngineConverter) :=
  let (started, segments) := call.converter.startConversion s.segments
  let s := { s with requestType := .conversion, segments }
  if ¬ started then some (false, s.resetState)
  else
    let s :=
      { s with
        segments := call.converter.rerank s.segments
        segmentIndex := 0
        state := .conversion
        candidateListVisible := call.isA11yTalkbackEnabled }
    (s.updateCandidateList fingerprint call).map fun s =>
      (true, s.initializeSelectedCandidateIndices)

def resizeSegmentWidth (delta : Int) (s : EngineConverter) : Option EngineConverter :=
  let s := { s with candidateListVisible := false }
  if s.state = .prediction then some s
  else
    let (resized, segments) := call.converter.resizeSegment s.segmentIndex delta s.segments
    let s := { s with segments }
    if ¬ resized then some s
    else do
      let s ← s.updateCandidateList fingerprint call
      -- The vector is resized, and what stands behind the focused segment is filled with zeros.
      let kept := s.selectedCandidateIndices.take (s.segmentIndex + 1)
      if s.segmentIndex + 1 ≤ s.segments.length then
        updateSelectedCandidateIndex
          { s with
            selectedCandidateIndices := kept ++ List.replicate (s.segments.length - kept.length) 0 }
      else none

/-- The common end of `ConvertToTransliteration` and `SwitchKanaType`. -/
def focusTransliteration (s : EngineConverter) : Option (Bool × EngineConverter) :=
  (setSelectedCandidateIndex 0 { s with candidateListVisible := false }).map fun s =>
    (true, s.segmentFocus call)

/-- The canceled prediction from which a transliteration starts. -/
def cancelPrediction (s : EngineConverter) : EngineConverter :=
  if s.state = .prediction then s.cancel else s

def convertToTransliteration (type : TransliterationType) (s : EngineConverter) :
    Option (Bool × EngineConverter) :=
  let s := s.cancelPrediction
  let queryAttr := getT13nAttributes type &&&
    (halfWidth ||| fullWidth ||| ascii ||| hiragana ||| katakana)
  if s.state ≠ .conversion then do
    let (converted, s) ← s.convert fingerprint call
    if ¬ converted then some (false, s)
    else
      let offset := ((s.segments.drop (s.segmentIndex + 1)).map ConversionSegment.keyLen).sum
      -- The number of characters becomes an `int`.
      let s ← if s.segmentIndex + 1 ≠ s.segments.length then
          s.resizeSegmentWidth fingerprint call ((offset : Int).bmod (2 ^ 32))
        else some s
      let queryAttr := if has queryAttr ascii then queryAttr ||| asis else queryAttr
      focusTransliteration call
        { s with candidateList := (s.candidateList.moveToAttributes queryAttr).2 }
  else
    let currentAttr := s.candidateList.deepestAttributes
    let commonAttr := currentAttr &&& queryAttr
    let queryAttr :=
      if has commonAttr ascii ∧ ((has queryAttr halfWidth ∧ has currentAttr fullWidth) ∨
          (has queryAttr fullWidth ∧ has currentAttr halfWidth)) then
        queryAttr ||| (currentAttr &&& (upper ||| lower ||| capitalized ||| asis))
      else queryAttr
    let candidateList :=
      if has commonAttr ascii ∧ (has commonAttr halfWidth ∨ has commonAttr fullWidth) then
        s.candidateList.cycleAlphaCase queryAttr
      else s.candidateList.moveNextAttributes queryAttr
    focusTransliteration call { s with candidateList }

/-- The workaround of `SwitchKanaType`: the segments are made one.  The offset is a byte. -/
def resizeToOneSegment (s : EngineConverter) : Option EngineConverter :=
  if s.segments.length = 1 then some s
  else
    let offset := UInt8.ofNat (s.segments.map ConversionSegment.keyLen).sum
    updateCandidateList fingerprint call
      { s with segments := (call.converter.resizeSegments 0 [offset] s.segments).2 }

def switchKanaType (s : EngineConverter) : Option (Bool × EngineConverter) :=
  let s := s.cancelPrediction
  if s.state ≠ .conversion then do
    let (converted, s) ← s.convert fingerprint call
    if ¬ converted then some (false, s)
    else
      let s ← s.resizeToOneSegment fingerprint call
      focusTransliteration call
        { s with candidateList := s.candidateList.moveNextAttributes (fullWidth ||| katakana) }
  else
    let currentAttributes := s.candidateList.deepestAttributes
    let attributes :=
      if has currentAttributes hiragana then fullWidth ||| katakana
      else if has currentAttributes katakana ∧ has currentAttributes fullWidth then
        halfWidth ||| katakana
      else hiragana
    focusTransliteration call
      { s with candidateList := s.candidateList.moveNextAttributes attributes }

/-- `GetConsumedPreeditSize` of a suggestion; without size, all is consumed. -/
def consumedPreeditSize (s : EngineConverter) : Option Nat :=
  (s.selectedCandidate 0).bind fun candidate =>
    if has candidate.attributes partiallyKeyConsumed then some candidate.consumedKeySize else none

end EngineConverter

end Mozkey.Engine
