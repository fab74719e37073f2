import Mozkey.Converter.Lattice

/-! The segment list of `converter/segments.cc`: history segments first, conversion segments after
them. -/

namespace Mozkey.Converter

inductive SegmentType where
  | free
  | fixedBoundary
  | fixedValue
  | submitted
  | history
  deriving DecidableEq

structure Candidate where
  key : Bytes := []
  value : Bytes := []
  contentKey : Bytes := []
  contentValue : Bytes := []
  cost : Int := 0
  wcost : Int := 0
  structureCost : Int := 0
  lid : Nat := 0
  rid : Nat := 0
  attributes : Nat := 0
  innerSegmentBoundary : List Nat := []
  deriving DecidableEq

structure Segment where
  segmentType : SegmentType := .free
  key : Bytes := []
  candidates : List Candidate := []
  deriving DecidableEq

structure Segments where
  segments : List Segment := []
  deriving DecidableEq

namespace Segments

variable (s : Segments)

def isHistory (segment : Segment) : Bool :=
  segment.segmentType = .history || segment.segmentType = .submitted

def historySegments : List Segment := s.segments.takeWhile isHistory

def historySegmentsSize : Nat := s.historySegments.length

def conversionSegments : List Segment := s.segments.drop s.historySegmentsSize

def conversionSegmentsSize : Nat := s.segments.length - s.historySegmentsSize

def segment (i : Nat) : Segment := s.segments.getD i {}

/-- `push_back_segment`, then the assignments of its caller. -/
def addSegment (segment : Segment) : Segments := ⟨s.segments ++ [segment]⟩

def eraseSegments (i size : Nat) : Segments :=
  if i ≥ s.segments.length ∨ i + size > s.segments.length then s
  else ⟨s.segments.take i ++ s.segments.drop (i + size)⟩

/-- The keys of a list of segments, one after another. -/
def joinedKey (segments : List Segment) : Bytes := segments.flatMap Segment.key

theorem historySegments_eq_take : s.historySegments = s.segments.take s.historySegmentsSize :=
  List.prefix_iff_eq_take.mp (List.takeWhile_prefix _)

theorem historySegments_append_conversionSegments :
    s.historySegments ++ s.conversionSegments = s.segments := by
  rw [historySegments_eq_take, conversionSegments, List.take_append_drop]

@[simp] theorem length_conversionSegments :
    s.conversionSegments.length = s.conversionSegmentsSize := List.length_drop

end Segments

/-- The end of the segment that a position is in, the segments laid out from `left`. -/
def segmentEnd : Nat → List Segment → Nat → Nat
  | left, [], _ => left
  | left, segment :: rest, pos =>
    if pos < left + segment.key.length then left + segment.key.length
    else segmentEnd (left + segment.key.length) rest pos

@[simp] theorem Segments.length_joinedKey_nil : (Segments.joinedKey []).length = 0 := rfl

@[simp] theorem Segments.length_joinedKey_cons (segment : Segment) (rest : List Segment) :
    (Segments.joinedKey (segment :: rest)).length =
      segment.key.length + (Segments.joinedKey rest).length := by
  simp [joinedKey]

theorem segmentEnd_of_le (left : Nat) (segments : List Segment) (pos : Nat)
    (h : left + (Segments.joinedKey segments).length ≤ pos) :
    segmentEnd left segments pos = left + (Segments.joinedKey segments).length := by
  induction segments generalizing left with
  | nil => simp [segmentEnd]
  | cons segment rest ih =>
    rw [Segments.length_joinedKey_cons] at h ⊢
    rw [segmentEnd, if_neg (by omega), ih _ (by omega)]
    omega

end Mozkey.Converter
