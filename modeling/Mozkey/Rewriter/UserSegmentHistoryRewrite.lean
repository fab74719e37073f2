import Mozkey.Config.CharacterFormManager
import Mozkey.Rewriter.UserSegmentHistoryRevert

/-! `Rewrite` of `UserSegmentHistoryRewriter`: the scores of a segment's candidates and the promotion
of the best ones.  A pointer to a scored candidate is the candidate, which no promotion changes. -/

namespace Mozkey.Rewriter

open Base Storage FeatureKey

/-- `CharacterFormManager` as the rewriter uses it: its conversion of a text, and the form that it
has for digits. -/
structure ConversionForms where
  convertConversionString : Bytes → Bytes
  digitForm : Config.CharacterForm

def numT13nTypes : Nat := 11

def Score.Above (a b : Score) : Prop :=
  if a.score = b.score then a.lastAccessTime > b.lastAccessTime else a.score > b.score

instance (a b : Score) : Decidable (a.Above b) := by
  unfold Score.Above
  infer_instance

structure ScoreCandidate where
  score : Score
  candidate : HistoryCandidate
  deriving DecidableEq

namespace HistorySegment

variable (segment : HistorySegment)

def insertCandidate (i : Nat) (candidate : HistoryCandidate) : HistorySegment :=
  { segment with candidates := segment.candidates.take i ++ candidate :: segment.candidates.drop i }

/-- `move_candidate`: a meta candidate is copied, another one leaves its place. -/
def moveCandidate (oldIdx : Int) (newIdx : Nat) : HistorySegment :=
  match oldIdx with
  | .negSucc metaIdx => segment.insertCandidate newIdx (segment.metaCandidate metaIdx)
  | .ofNat old =>
    if old ≥ segment.candidatesSize ∨ newIdx ≥ segment.candidatesSize ∨ old = newIdx then segment
    else
      insertCandidate { segment with candidates := segment.candidates.eraseIdx old } newIdx
        (segment.candidate old)

def modifyTop (f : HistoryCandidate → HistoryCandidate) : HistorySegment :=
  { segment with candidates := segment.candidates.modify 0 f }

end HistorySegment

def HistoryCandidate.addAttribute (candidate : HistoryCandidate) (bit : UInt32) : HistoryCandidate :=
  { candidate with attributes := candidate.attributes ||| bit }

def getValueByType (segment : HistorySegment) (style : NumberStyle) (output : Bytes) : Bytes :=
  ((segment.candidates.find? fun candidate => candidate.style = style).map
    HistoryCandidate.value).getD output

def normalizeCandidate (forms : ConversionForms) (segment : HistorySegment) (n : Int) : Bytes :=
  let candidate := segment.candidate n
  if candidate.has Attribute.noVariantsExpansion then candidate.value
  else if candidate.style = .defaultStyle then forms.convertConversionString candidate.value
  else if candidate.style = .numberSeparatedArabicHalfwidth ∨
      candidate.style = .numberSeparatedArabicFullwidth then
    match forms.digitForm with
    | .fullWidth => getValueByType segment .numberSeparatedArabicFullwidth candidate.value
    | .halfWidth => getValueByType segment .numberSeparatedArabicHalfwidth candidate.value
    | _ => candidate.value
  else candidate.value

def getSameValueCandidatePosition (segment : HistorySegment) (candidate : HistoryCandidate) :
    Option Int :=
  match segment.candidates.findIdx? fun other => other.value = candidate.value with
  | some i => some (Int.ofNat i)
  | none =>
    (segment.metaCandidates.findIdx? fun other => other.value = candidate.value).map Int.negSucc

def kScoreGap : Nat := 20

local instance : LawfulBEq Bytes := inferInstance

def sortLoop (forms : ConversionForms) (topScore : Nat) :
    List ScoreCandidate → Nat → List Bytes → HistorySegment → Bool × HistorySegment
  | [], _, _, segment => (true, segment)
  | x :: sortedScores, nextPos, seen, segment =>
    if kScoreGap < topScore - x.score.score then (true, segment)
    else
      match getSameValueCandidatePosition segment x.candidate with
      | none => (false, segment)
      | some oldPosition =>
        let normalizedValue := normalizeCandidate forms segment oldPosition
        if normalizedValue ≠ x.candidate.value then
          match segment.candidates.findIdx? fun other => other.value = normalizedValue with
          | some pos =>
            if normalizedValue ∉ seen then
              sortLoop forms topScore sortedScores (nextPos + 1) (normalizedValue :: seen)
                (segment.moveCandidate (Int.ofNat pos) nextPos)
            else sortLoop forms topScore sortedScores nextPos seen segment
          | none =>
            sortLoop forms topScore sortedScores (nextPos + 1) (normalizedValue :: seen)
              (segment.insertCandidate nextPos { x.candidate with
                value := normalizedValue
                contentValue := forms.convertConversionString x.candidate.contentValue })
        else if x.candidate.value ∉ seen then
          sortLoop forms topScore sortedScores (nextPos + 1) (x.candidate.value :: seen)
            (segment.moveCandidate oldPosition nextPos)
        else sortLoop forms topScore sortedScores nextPos seen segment

/-- The order in which a stable sort leaves two scores as they are. -/
abbrev SortsBefore (a b : ScoreCandidate) : Prop := ¬ b.score.Above a.score

def sortCandidates (forms : ConversionForms) (scores : List ScoreCandidate)
    (segment : HistorySegment) : Bool × HistorySegment :=
  let sortedScores := scores.insertionSort SortsBefore
  let topScore := (sortedScores.head?.map fun x => x.score.score).getD 0
  sortLoop forms topScore (sortedScores.take kMaxRerankSize) 0 [] segment

/-- The candidate index of each step of a scoring loop, which takes the candidates from zero and
moves the steps behind them by `offset`. -/
def scoredIndices (segment : HistorySegment) (offset : Nat) : List Int :=
  (List.range (segment.candidatesSize + segment.metaCandidatesSize)).map fun l =>
    if l ≥ segment.candidatesSize then (l : Int) - (segment.candidatesSize + offset : Nat)
    else (l : Int)

/-- The workaround of `RewriteNumber` for separated arabic. -/
def numberScore (s : LruStorage 4) (candidate : HistoryCandidate) : Score :=
  let score := fetch s (number candidate.style) 10
  if score.lastAccessTime > 0 ∧ candidate.style ≠ .numberSeparatedArabicFullwidth ∧
      candidate.style ≠ .numberSeparatedArabicHalfwidth then
    { score with lastAccessTime := score.lastAccessTime - 1 }
  else score

def numberScores (s : LruStorage 4) (segment : HistorySegment) : List ScoreCandidate :=
  (scoredIndices segment segment.metaCandidatesSize).filterMap fun j =>
    let score := numberScore s (segment.candidate j)
    if score.score ≠ 0 then some ⟨score, segment.candidate j⟩ else none

/-- The number of candidates in a stored trigger value. -/
def triggerSize (v : Option (Item 4)) : Nat :=
  match v with
  | some v => if featureType v.value = 0 then (v.value.toList.getD 3 0).toNat else 0
  | none => 0

def shouldRewrite (s : LruStorage 4) (segment : HistorySegment) : Bool :=
  let v1Size := triggerSize (s.lookupItem (fingerprintOf s segment.key))
  let v2Size :=
    if segment.key ≠ (segment.candidate 0).contentKey then
      triggerSize (s.lookupItem (fingerprintOf s (segment.candidate 0).contentKey))
    else 0
  segment.candidatesSize ≠ 0 && max v1Size v2Size > 0

def updateBestCandidate (segment : HistorySegment) : HistorySegment :=
  if segment.candidatesSize = 0 then segment
  else
    HistorySegment.modifyTop
      { segment with candidates := segment.candidates.map fun candidate =>
          { candidate with attributes := candidate.attributes &&& ~~~Attribute.bestCandidate } }
      fun candidate => (candidate.addAttribute Attribute.bestCandidate).addAttribute
        Attribute.userSegmentHistoryRewriter

/-- The end of a step of `Rewrite` for a segment that was sorted. -/
def markRewritten (sorted : Bool) (oldTopValue : Bytes) (segment : HistorySegment) : HistorySegment :=
  if sorted && (segment.candidate 0).value ≠ oldTopValue then updateBestCandidate segment
  else if sorted && !(segment.candidate 0).has Attribute.bestCandidate then
    segment.modifyTop fun candidate => candidate.addAttribute Attribute.userSegmentHistoryRewriter
  else segment

inductive Treatment where
  | skipped
  | number
  | scored
  deriving DecidableEq

section rewrite

variable (pos : PosData) (forms : ConversionForms) (request : RewriteRequest) (s : LruStorage 4)
  (segments : HistorySegments) (i : Nat)

def treatment (segment : HistorySegment) : Treatment :=
  if segment.segmentType = .fixedValue then .skipped
  else if isPunctuation pos segment (segment.candidate 0) then .skipped
  else if isNumberSegment segment then
    if !isNumberStyleLearningEnabled request then .number else .skipped
  else if shouldRewrite s segment then .scored else .skipped

def segmentScores : List ScoreCandidate :=
  (scoredIndices (segments.segment i) numT13nTypes).filterMap fun j =>
    let score := getScore pos segments i j s
    if score.score > 0 then some ⟨score, (segments.segment i).candidate j⟩ else none

/-- The candidate indices that `Rewrite` scores in a segment, if it scores any. -/
def rewriteIndices (segment : HistorySegment) : Option (List Int) :=
  match treatment pos request s segment with
  | .skipped => none
  | .number => some (scoredIndices segment segment.metaCandidatesSize)
  | .scored => some (scoredIndices segment numT13nTypes)

def rewriteScores : List ScoreCandidate :=
  match treatment pos request s (segments.segment i) with
  | .skipped => []
  | .number => numberScores s (segments.segment i)
  | .scored => segmentScores pos s segments i

def setSegment (segment : HistorySegment) : HistorySegments :=
  { segments with segments := segments.segments.set i segment }

def rewriteSegment : Bool × HistorySegments :=
  let segment := segments.segment i
  match treatment pos request s segment with
  | .skipped => (false, segments)
  | .number =>
    let scores := numberScores s segment
    if scores = [] then (false, segments)
    else
      let (modified, segment) := sortCandidates forms scores segment
      (modified, setSegment segments i segment)
  | .scored =>
    let scores := segmentScores pos s segments i
    if scores = [] then (false, segments)
    else
      let oldTopValue := (segment.candidate 0).value
      let (sorted, segment) := sortCandidates forms scores segment
      (sorted, setSegment segments i (markRewritten sorted oldTopValue segment))

def rewriteLoop : List Nat → HistorySegments → Bool × HistorySegments
  | [], segments => (false, segments)
  | i :: is, segments =>
    let (modified, segments) := rewriteSegment pos forms request s segments i
    let (modified', segments) := rewriteLoop is segments
    (modified || modified', segments)

def markBest : HistorySegments :=
  { segments with segments := segments.segments.map fun segment =>
      segment.modifyTop fun candidate => candidate.addAttribute Attribute.bestCandidate }

def conversionIndices : List Nat :=
  (List.range segments.segmentsSize).drop segments.historySegmentsSize

def rewriteSegments : Bool × HistorySegments :=
  if !isAvailable request segments then (false, segments)
  else if request.historyLearningLevel = .noHistory then (false, segments)
  else rewriteLoop pos forms request s (conversionIndices segments) (markBest segments)

/-- `MaybeApplyPendingRevert` as `Rewrite` calls it: the storage that it leaves, and
`pending_revert_`. -/
def applyPendingRevert (pendingRevert : Option PendingRevert) :
    Option (Option PendingRevert × LruStorage 4) :=
  if request.isConversion || request.key ≠ [] then
    match pendingRevert with
    | none => some (none, s)
    | some pendingRevert => do
      let s ← deleteStorage (revertedKeys request pendingRevert) s
      some (none, s)
  else some (pendingRevert, s)

def rewrite (pendingRevert : Option PendingRevert) :
    Option (Bool × HistorySegments × Option PendingRevert × LruStorage 4) := do
  let (pendingRevert, s) ← applyPendingRevert request s pendingRevert
  let (modified, segments) := rewriteSegments pos forms request s segments
  some (modified, segments, pendingRevert, s)

end rewrite

end Mozkey.Rewriter
