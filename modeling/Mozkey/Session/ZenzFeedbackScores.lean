import Mozkey.Lib.OrderedMap
import Mozkey.Session.ZenzFeedbackStore

/-! The two queries of `session/zenz_feedback_store.cc`: `Decide` on a value, and
`GetRankedCandidates`, over the counts of the feedback records. -/

namespace Mozkey.Session

open Storage Base Lib

namespace ZenzFeedbackStore

def kAcceptThreshold : Int32 := 1
def kAcceptedFeedbackWeight : Int32 := 1000
def kSpaceRevertRejectWeight : Int32 := 150
def kPredictAfterZenzRejectWeight : Int32 := 200
def kExplicitConversionRejectWeight : Int32 := 400
def kLegacyRejectWeight : Int32 := 400
def kHardRejectWeight : Int32 := 2000

structure Counts where
  accepted : Int32 := 0
  rejected : Int32 := 0
  positiveScore : Int32 := 0
  negativeScore : Int32 := 0
  hardRejected : Bool := false
  deriving DecidableEq

def totalScore (c : Counts) : Int32 := c.positiveScore - c.negativeScore

def isHardRejectReason (reason : Bytes) : Bool :=
  reason == str "hard_reject" || reason == str "user_hard_reject" ||
    reason == str "manual_hard_reject" || reason == str "explicit_hard_reject"

def rejectWeightForReason (reason : Bytes) : Int32 :=
  if isHardRejectReason reason then kHardRejectWeight
  else if reason = str "space_revert_zenz_to_mozc" then kSpaceRevertRejectWeight
  else if reason = str "predict_after_zenz" then kPredictAfterZenzRejectWeight
  else if reason = str "explicit_conversion_after_zenz" then kExplicitConversionRejectWeight
  else kLegacyRejectWeight

def addAccepted (c : Counts) : Counts :=
  { c with
    accepted := c.accepted + 1
    positiveScore := c.positiveScore + kAcceptedFeedbackWeight }

def addRejected (reason : Bytes) (c : Counts) : Counts :=
  { c with
    rejected := c.rejected + 1
    negativeScore := c.negativeScore + rejectWeightForReason reason
    hardRejected := c.hardRejected || isHardRejectReason reason }

def mergeCounts (src dest : Counts) : Counts where
  accepted := dest.accepted + src.accepted
  rejected := dest.rejected + src.rejected
  positiveScore := dest.positiveScore + src.positiveScore
  negativeScore := dest.negativeScore + src.negativeScore
  hardRejected := dest.hardRejected || src.hardRejected

abbrev FeedbackKey := Bytes × Bytes × Bytes

abbrev feedbackKeyLess : FeedbackKey → FeedbackKey → Bool :=
  lexLess ascending (lexLess ascending ascending)

def isSensitiveFeedbackContextClass (contextClass : Bytes) : Bool :=
  contextClass == str "sensitive_like"

def isSharedPromotionContextClass (contextClass : Bytes) : Bool :=
  contextClass == str "empty" || contextClass == str "japanese_only" ||
    contextClass == str "japanese_with_punctuation" ||
    contextClass == str "mixed_japanese_ascii" || contextClass == str "symbol_or_other" ||
    contextClass == str "legacy"

def isPromotionCompatibleContextClass (requested record : Bytes) : Bool :=
  if requested = record then true
  else if isSensitiveFeedbackContextClass requested || isSensitiveFeedbackContextClass record then
    false
  else isSharedPromotionContextClass requested && isSharedPromotionContextClass record

def isDecisionCompatibleContextClass (requested record : Bytes) : Bool :=
  if requested = record then true
  else if isSensitiveFeedbackContextClass requested || isSensitiveFeedbackContextClass record then
    false
  else isSharedPromotionContextClass requested && isSharedPromotionContextClass record

inductive ZenzFeedbackAction where
  | kNeutral
  | kPrefer
  | kReject
  deriving DecidableEq

structure ZenzFeedbackDecision where
  action : ZenzFeedbackAction := .kNeutral
  reason : Bytes := str "feedback_neutral"
  acceptedCount : Int32 := 0
  rejectedCount : Int32 := 0
  positiveScore : Int32 := 0
  negativeScore : Int32 := 0
  totalScore : Int32 := 0
  hardRejected : Bool := false
  deriving DecidableEq

def buildDecisionFromCounts (c : Counts) : ZenzFeedbackDecision :=
  let decision : ZenzFeedbackDecision :=
    { acceptedCount := c.accepted
      rejectedCount := c.rejected
      positiveScore := c.positiveScore
      negativeScore := c.negativeScore
      totalScore := totalScore c
      hardRejected := c.hardRejected }
  if c.hardRejected then
    { decision with action := .kReject, reason := str "feedback_hard_rejected" }
  else if kAcceptThreshold ≤ c.accepted ∧ 0 < decision.totalScore then
    { decision with action := .kPrefer, reason := str "feedback_preferred" }
  else
    { decision with
      action := .kNeutral
      reason := if 0 < c.rejected then str "feedback_downgraded" else str "feedback_neutral" }

def recordKey (record : ParsedFeedbackRecord) : FeedbackKey :=
  (record.key, record.contextClass, record.value)

/-- What `LoadCounts` does with a record on the counts of its key. -/
def addRecord (record : ParsedFeedbackRecord) (c : Counts) : Counts :=
  if record.action = str "accepted" then addAccepted c
  else if record.action = str "rejected" then addRejected record.reason c
  else c

def loadCounts (records : List ParsedFeedbackRecord) : OrderedMap FeedbackKey Counts feedbackKeyLess :=
  records.foldl (fun counts record => counts.update (recordKey record) {} (addRecord record)) .empty

def decideValue (records : List ParsedFeedbackRecord) (key contextClass value : Bytes) :
    ZenzFeedbackDecision :=
  let normalizedContextClass := normalizeContextClass contextClass
  buildDecisionFromCounts <| (loadCounts records).entries.foldl (fun aggregated item =>
    let (recordKey, recordContextClass, recordValue) := item.1
    if recordKey ≠ key ∨ recordValue ≠ value then aggregated
    else if ¬ isDecisionCompatibleContextClass normalizedContextClass recordContextClass then
      aggregated
    else mergeCounts item.2 aggregated) {}

structure ZenzFeedbackCandidate where
  value : Bytes
  acceptedCount : Int32 := 0
  rejectedCount : Int32 := 0
  positiveScore : Int32 := 0
  negativeScore : Int32 := 0
  totalScore : Int32 := 0
  hardRejected : Bool := false
  reason : Bytes := str "feedback_neutral"
  deriving DecidableEq

def candidateLess (a b : ZenzFeedbackCandidate) : Bool :=
  if a.totalScore ≠ b.totalScore then decide (b.totalScore < a.totalScore)
  else if a.positiveScore ≠ b.positiveScore then decide (b.positiveScore < a.positiveScore)
  else if a.negativeScore ≠ b.negativeScore then decide (a.negativeScore < b.negativeScore)
  else decide (a.value < b.value)

/-- The counts of `GetRankedCandidates` under their values. -/
def valueCounts (records : List ParsedFeedbackRecord) (key contextClass : Bytes) :
    OrderedMap Bytes Counts ascending :=
  let normalizedContextClass := normalizeContextClass contextClass
  (loadCounts records).entries.foldl (fun valueCounts item =>
    let (recordKey, recordContextClass, recordValue) := item.1
    if recordKey ≠ key then valueCounts
    else if ¬ isPromotionCompatibleContextClass normalizedContextClass recordContextClass then
      valueCounts
    else valueCounts.update recordValue {} (mergeCounts item.2)) .empty

def candidateOfCounts (item : Bytes × Counts) : Option ZenzFeedbackCandidate :=
  let (value, c) := item
  if c.hardRejected ∨ c.accepted < kAcceptThreshold ∨ totalScore c ≤ 0 then none
  else
    some {
      value := value
      acceptedCount := c.accepted
      rejectedCount := c.rejected
      positiveScore := c.positiveScore
      negativeScore := c.negativeScore
      totalScore := totalScore c
      hardRejected := c.hardRejected
      reason := str "feedback_preferred" }

def getRankedCandidates (records : List ParsedFeedbackRecord) (key contextClass : Bytes) :
    List ZenzFeedbackCandidate :=
  ((valueCounts records key contextClass).entries.filterMap candidateOfCounts).insertionSort
    fun a b => ¬ candidateLess b a

end ZenzFeedbackStore

end Mozkey.Session
