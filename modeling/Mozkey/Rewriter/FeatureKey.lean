import Mathlib
import Mozkey.Base.ScriptType
import Mozkey.Converter.InnerSegment
import Mozkey.Converter.Segments

/-! The segments that `UserSegmentHistoryRewriter` reads, and the feature keys under which it learns
them (`FeatureKey` of `rewriter/user_segment_history_rewriter.cc`). -/

namespace Mozkey.Rewriter

open Converter (Bytes SegmentType)
open Base

namespace Attribute

def bestCandidate : UInt32 := 0x1

def reranked : UInt32 := 0x2

def noHistoryLearning : UInt32 := 0x4

def contextSensitive : UInt32 := 0x10

def noVariantsExpansion : UInt32 := 0x40

def userSegmentHistoryRewriter : UInt32 := 0x20000

end Attribute

inductive NumberStyle where
  | defaultStyle
  | numberSeparatedArabicHalfwidth
  | numberSeparatedArabicFullwidth
  | numberArabicAndKanjiHalfwidth
  | numberArabicAndKanjiFullwidth
  | numberKanji
  | numberOldKanji
  | numberRomanCapital
  | numberRomanSmall
  | numberCircled
  | numberKanjiArabic
  | numberHex
  | numberOct
  | numberBin
  | numberSuperscript
  | numberSubscript
  deriving DecidableEq

structure HistoryCandidate where
  key : Bytes := []
  value : Bytes := []
  contentKey : Bytes := []
  contentValue : Bytes := []
  lid : UInt16 := 0
  rid : UInt16 := 0
  attributes : UInt32 := 0
  style : NumberStyle := .defaultStyle
  innerSegmentBoundary : List UInt32 := []
  deriving DecidableEq

namespace HistoryCandidate

variable (candidate : HistoryCandidate)

def has (bit : UInt32) : Bool := candidate.attributes &&& bit ≠ 0

def functionalValue : Bytes :=
  candidate.value.drop (min candidate.value.length candidate.contentValue.length)

def isT13N : Bool := candidate.lid = 0 && candidate.rid = 0

end HistoryCandidate

structure HistorySegment where
  segmentType : SegmentType := .free
  key : Bytes := []
  candidates : List HistoryCandidate := []
  metaCandidates : List HistoryCandidate := []
  deriving DecidableEq

namespace HistorySegment

variable (segment : HistorySegment)

def candidatesSize : Nat := segment.candidates.length

def metaCandidatesSize : Nat := segment.metaCandidates.length

def isValidIndex : Int → Bool
  | .ofNat i => i < segment.candidatesSize
  | .negSucc i => i < segment.metaCandidatesSize

/-- `meta_candidate`, which reads the first one for an index out of range. -/
def metaCandidate (i : Nat) : HistoryCandidate :=
  segment.metaCandidates.getD (if i < segment.metaCandidatesSize then i else 0) {}

/-- A candidate, or a meta candidate for a negative index: `-i - 1` is `m` where `i` is
`Int.negSucc m`.  Where there is none the source reads out of bounds. -/
def candidate : Int → HistoryCandidate
  | .ofNat i => segment.candidates.getD i {}
  | .negSucc i => segment.metaCandidate i

end HistorySegment

structure HistorySegments where
  segments : List HistorySegment := []
  resized : Bool := false
  revertId : UInt64 := 0
  deriving DecidableEq

namespace HistorySegments

variable (segments : HistorySegments)

def segmentsSize : Nat := segments.segments.length

def segment (i : Nat) : HistorySegment := segments.segments.getD i {}

def historySegmentsSize : Nat :=
  (segments.segments.takeWhile fun segment =>
    segment.segmentType = .history || segment.segmentType = .submitted).length

def conversionSegmentsSize : Nat := segments.segmentsSize - segments.historySegmentsSize

end HistorySegments

structure PosData where
  isNumber : UInt16 → Bool
  isKanjiNumber : UInt16 → Bool
  isJapanesePunctuations : UInt16 → Bool
  getPosGroup : UInt16 → UInt8

def kMaxRerankSize : Nat := 5

/-- The first of the first six candidates that was the best one before learning. -/
def getDefaultCandidateIndex (segment : HistorySegment) : Nat :=
  ((segment.candidates.take (kMaxRerankSize + 1)).findIdx?
    fun candidate => candidate.has Attribute.bestCandidate).getD 0

def kTab : UInt8 := 0x09

def strJoinWithTabs (strings : List Bytes) : Bytes := List.intercalate [kTab] strings

def ascii (s : String) : Bytes := s.toList.map fun c => UInt8.ofNat c.toNat

namespace FeatureKey

variable (pos : PosData) (segments : HistorySegments) (index : Nat) (baseKey baseValue : Bytes)

def defaultCandidate (i : Nat) : HistoryCandidate :=
  (segments.segment i).candidate (getDefaultCandidateIndex (segments.segment i))

def leftRight : Bytes :=
  if index + 1 ≥ segments.segmentsSize ∨ index ≤ 0 then []
  else strJoinWithTabs [ascii "LR", baseKey, (defaultCandidate segments (index - 1)).value,
    baseValue, (defaultCandidate segments (index + 1)).value]

def leftLeft : Bytes :=
  if index < 2 then []
  else strJoinWithTabs [ascii "LL", baseKey, (defaultCandidate segments (index - 2)).value,
    (defaultCandidate segments (index - 1)).value, baseValue]

def rightRight : Bytes :=
  if index + 2 ≥ segments.segmentsSize then []
  else strJoinWithTabs [ascii "RR", baseKey, baseValue,
    (defaultCandidate segments (index + 1)).value, (defaultCandidate segments (index + 2)).value]

def left : Bytes :=
  if index < 1 then []
  else strJoinWithTabs [ascii "L", baseKey, (defaultCandidate segments (index - 1)).value,
    baseValue]

def right : Bytes :=
  if index + 1 ≥ segments.segmentsSize then []
  else strJoinWithTabs [ascii "R", baseKey, baseValue,
    (defaultCandidate segments (index + 1)).value]

def current : Bytes := strJoinWithTabs [ascii "C", baseKey, baseValue]

def single : Bytes :=
  if segments.conversionSegmentsSize ≠ 1 then []
  else strJoinWithTabs [ascii "S", baseKey, baseValue]

/-- The test of both number features on a neighbour and its id on this side. -/
def isNumberCandidate (id : UInt16) (value : Bytes) : Bool :=
  pos.isNumber id || pos.isKanjiNumber id || Util.getScriptTypeOfText value = .number

def leftNumber : Bytes :=
  if index < 1 then []
  else
    let candidate := defaultCandidate segments (index - 1)
    if isNumberCandidate pos candidate.rid candidate.value then
      strJoinWithTabs [ascii "LN", baseKey, baseValue]
    else []

def rightNumber : Bytes :=
  if index + 1 ≥ segments.segmentsSize then []
  else
    let candidate := defaultCandidate segments (index + 1)
    if isNumberCandidate pos candidate.lid candidate.value then
      strJoinWithTabs [ascii "RN", baseKey, baseValue]
    else []

def number (type : NumberStyle) : Bytes :=
  strJoinWithTabs [ascii "N", ascii (toString type.ctorIdx)]

end FeatureKey

end Mozkey.Rewriter
