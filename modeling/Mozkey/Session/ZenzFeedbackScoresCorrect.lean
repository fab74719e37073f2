import Mozkey.Session.ZenzFeedbackScores

/-! The two queries of the feedback store agree, do not depend on the order of the records, and keep
the records of sensitive contexts and the other ones apart. -/

namespace Mozkey.Session

open Storage Base Lib

namespace ZenzFeedbackStore

instance zeroCounts : Zero Counts := ⟨{}⟩

instance addCounts : Add Counts := ⟨fun dest src => mergeCounts src dest⟩

instance addCommMonoidCounts : AddCommMonoid Counts where
  add_assoc a b c := by
    show mergeCounts c (mergeCounts b a) = mergeCounts (mergeCounts c b) a
    simp only [mergeCounts, Int32.add_assoc, Bool.or_assoc]
  zero_add a := by
    show mergeCounts a {} = a
    simp only [mergeCounts, Int32.zero_add, Bool.false_or]
  add_zero a := by
    show mergeCounts {} a = a
    simp only [mergeCounts, Int32.add_zero, Bool.or_false]
  add_comm a b := by
    show mergeCounts b a = mergeCounts a b
    simp only [mergeCounts, Int32.add_comm, Bool.or_comm]
  nsmul := nsmulRec

theorem mergeCounts_eq_add (src dest : Counts) : mergeCounts src dest = dest + src := rfl

theorem counts_default_eq_zero : ({} : Counts) = 0 := rfl

def recordCounts (record : ParsedFeedbackRecord) : Counts :=
  if record.action = str "accepted" then { accepted := 1, positiveScore := kAcceptedFeedbackWeight }
  else if record.action = str "rejected" then
    { rejected := 1
      negativeScore := rejectWeightForReason record.reason
      hardRejected := isHardRejectReason record.reason }
  else {}

theorem addRecord_eq_add (record : ParsedFeedbackRecord) (c : Counts) :
    addRecord record c = c + recordCounts record := by
  rw [← mergeCounts_eq_add, addRecord, recordCounts]
  split
  · simp [addAccepted, mergeCounts]
  split
  · simp [addRejected, mergeCounts]
  · simp [mergeCounts]

theorem loadCounts_eq_totals (records : List ParsedFeedbackRecord) :
    loadCounts records = OrderedMap.totals feedbackKeyLess recordKey recordCounts records := by
  have hupdate : (fun (counts : OrderedMap FeedbackKey Counts feedbackKeyLess) record =>
        counts.update (recordKey record) {} (addRecord record)) =
      fun counts record => counts.update (recordKey record) 0 (· + recordCounts record) := by
    funext counts record
    rw [counts_default_eq_zero]
    congr
    funext c
    exact addRecord_eq_add record c
  rw [loadCounts, hupdate]
  rfl

theorem foldl_mergeCounts (entries : List (FeedbackKey × Counts)) (c : Counts) :
    entries.foldl (fun aggregated item => mergeCounts item.2 aggregated) c =
      c + (entries.map Prod.snd).sum := by
  induction entries generalizing c with
  | nil => exact (add_zero c).symm
  | cons e entries ih =>
    rw [List.foldl_cons, ih, mergeCounts_eq_add, List.map_cons, List.sum_cons, add_assoc]

theorem isDecisionCompatible_eq (requested record : Bytes) :
    isDecisionCompatibleContextClass requested record =
      isPromotionCompatibleContextClass requested record := rfl

/-- The records that a query for a key and a context class takes into account. -/
def isConsulted (key contextClass : Bytes) (k : FeedbackKey) : Bool :=
  k.1 == key && isPromotionCompatibleContextClass (normalizeContextClass contextClass) k.2.1

def consultedCounts (records : List ParsedFeedbackRecord) (key contextClass value : Bytes) : Counts :=
  ((records.filter fun record =>
    isConsulted key contextClass (recordKey record) && record.value == value).map recordCounts).sum

theorem decideValue_eq (records : List ParsedFeedbackRecord) (key contextClass value : Bytes) :
    decideValue records key contextClass value =
      buildDecisionFromCounts (consultedCounts records key contextClass value) := by
  have hfold : ∀ (c : Counts) (item : FeedbackKey × Counts),
      (if item.1.1 ≠ key ∨ item.1.2.2 ≠ value then c
        else if ¬ isDecisionCompatibleContextClass (normalizeContextClass contextClass) item.1.2.1 then c
        else mergeCounts item.2 c) =
      if (isConsulted key contextClass item.1 && item.1.2.2 == value) = true then
        mergeCounts item.2 c else c := by
    intro c item
    rw [isConsulted, isDecisionCompatible_eq]
    grind
  rw [decideValue, loadCounts_eq_totals]
  dsimp only
  simp only [hfold]
  rw [← List.foldl_filter, foldl_mergeCounts, counts_default_eq_zero, zero_add,
    OrderedMap.sum_totals fun k => isConsulted key contextClass k && k.2.2 == value]
  rfl

theorem valueCounts_eq (records : List ParsedFeedbackRecord) (key contextClass : Bytes) :
    valueCounts records key contextClass =
      OrderedMap.totals ascending (fun record : ParsedFeedbackRecord => record.value) recordCounts
        (records.filter fun record => isConsulted key contextClass (recordKey record)) := by
  have hfold : ∀ (m : OrderedMap Bytes Counts ascending) (item : FeedbackKey × Counts),
      (if item.1.1 ≠ key then m
        else if ¬ isPromotionCompatibleContextClass (normalizeContextClass contextClass) item.1.2.1 then
          m
        else m.update item.1.2.2 {} (mergeCounts item.2)) =
      if isConsulted key contextClass item.1 = true then m.update item.1.2.2 0 (· + item.2) else m := by
    intro m item
    rw [isConsulted, counts_default_eq_zero]
    have hmerge : mergeCounts item.2 = (· + item.2) := rfl
    rw [hmerge]
    grind
  rw [valueCounts, loadCounts_eq_totals]
  dsimp only
  simp only [hfold]
  rw [← List.foldl_filter]
  exact OrderedMap.totals_totals (isConsulted key contextClass) (fun k => k.2.2) records

variable {records records' : List ParsedFeedbackRecord} {key contextClass value : Bytes}

theorem get?_valueCounts {c : Counts} :
    (valueCounts records key contextClass).get? value = some c ↔
      (∃ record ∈ records, isConsulted key contextClass (recordKey record) = true ∧
        record.value = value) ∧ c = consultedCounts records key contextClass value := by
  have hfilter : ∀ record : ParsedFeedbackRecord,
      (decide (record.value = value) && isConsulted key contextClass (recordKey record)) =
        (isConsulted key contextClass (recordKey record) && record.value == value) := by
    intro record
    rw [Bool.and_comm, beq_eq_decide]
  rw [valueCounts_eq, OrderedMap.get?_totals, List.filter_filter, consultedCounts]
  simp only [List.mem_map, List.mem_filter, and_assoc, hfilter]

/-- The candidate that a decision for a value stands for. -/
def candidateOfDecision (value : Bytes) (decision : ZenzFeedbackDecision) : ZenzFeedbackCandidate where
  value := value
  acceptedCount := decision.acceptedCount
  rejectedCount := decision.rejectedCount
  positiveScore := decision.positiveScore
  negativeScore := decision.negativeScore
  totalScore := decision.totalScore
  hardRejected := decision.hardRejected
  reason := decision.reason

theorem candidateOfCounts_eq_some_iff {c : Counts} {candidate : ZenzFeedbackCandidate} :
    candidateOfCounts (value, c) = some candidate ↔
      (buildDecisionFromCounts c).action = .kPrefer ∧
        candidate = candidateOfDecision value (buildDecisionFromCounts c) := by
  rw [candidateOfCounts, buildDecisionFromCounts]
  dsimp only
  by_cases hhard : c.hardRejected = true
  · rw [if_pos (.inl hhard), if_pos hhard]
    exact ⟨nofun, nofun⟩
  by_cases hprefer : kAcceptThreshold ≤ c.accepted ∧ 0 < totalScore c
  · have hnot : ¬ (c.hardRejected = true ∨ c.accepted < kAcceptThreshold ∨ totalScore c ≤ 0) := by
      rw [not_or, not_or, Std.not_lt, Std.not_le]
      exact ⟨hhard, hprefer⟩
    rw [if_neg hnot, if_neg hhard, if_pos hprefer, Option.some_inj]
    exact ⟨fun heq => ⟨rfl, heq.symm⟩, fun h => h.2.symm⟩
  · have hor : c.hardRejected = true ∨ c.accepted < kAcceptThreshold ∨ totalScore c ≤ 0 := by
      rw [not_and_or, Std.not_le, Std.not_lt] at hprefer
      exact .inr hprefer
    rw [if_pos hor, if_neg hhard, if_neg hprefer]
    exact ⟨nofun, fun h => by cases h.1⟩

theorem mem_getRankedCandidates_iff {candidate : ZenzFeedbackCandidate} :
    candidate ∈ getRankedCandidates records key contextClass ↔
      (decideValue records key contextClass candidate.value).action = .kPrefer ∧
        candidate = candidateOfDecision candidate.value
          (decideValue records key contextClass candidate.value) := by
  rw [getRankedCandidates, List.mem_insertionSort, List.mem_filterMap, decideValue_eq]
  constructor
  · rintro ⟨⟨value, c⟩, hmem, hcandidate⟩
    have hget := OrderedMap.get?_eq_some_iff.mpr hmem
    rw [get?_valueCounts] at hget
    obtain ⟨hprefer, heq⟩ := candidateOfCounts_eq_some_iff.mp hcandidate
    have hvalue : candidate.value = value := by rw [heq]; rfl
    rw [hvalue, ← hget.2]
    exact ⟨hprefer, heq⟩
  · rintro ⟨hprefer, heq⟩
    refine ⟨(candidate.value, consultedCounts records key contextClass candidate.value), ?_,
      candidateOfCounts_eq_some_iff.mpr ⟨hprefer, heq⟩⟩
    rw [← OrderedMap.get?_eq_some_iff, get?_valueCounts]
    refine ⟨?_, rfl⟩
    by_contra hnone
    -- without a record the counts are zero, and the decision is neutral
    have hnil : (records.filter fun record =>
        isConsulted key contextClass (recordKey record) && record.value == candidate.value) = [] := by
      rw [List.filter_eq_nil_iff]
      intro record hmem hboth
      rw [Bool.and_eq_true, beq_iff_eq] at hboth
      exact hnone ⟨record, hmem, hboth⟩
    rw [consultedCounts, hnil] at hprefer
    exact absurd hprefer (by decide)

theorem hardRejected_add (a b : Counts) : (a + b).hardRejected = (a.hardRejected || b.hardRejected) :=
  rfl

theorem hardRejected_sum_of_mem {cs : List Counts} {c : Counts} (hmem : c ∈ cs)
    (hhard : c.hardRejected = true) : cs.sum.hardRejected = true := by
  induction cs with
  | nil => cases hmem
  | cons c' cs ih =>
    rw [List.sum_cons, hardRejected_add, Bool.or_eq_true]
    rcases List.mem_cons.mp hmem with rfl | hmem
    · exact .inl hhard
    · exact .inr (ih hmem)

theorem hardRejected_of_prefer {c : Counts} (h : (buildDecisionFromCounts c).action = .kPrefer) :
    c.hardRejected = false := by
  rw [buildDecisionFromCounts] at h
  dsimp only at h
  split at h
  · cases h
  · rename_i hhard
    exact Bool.eq_false_iff.mpr hhard

def rank (candidate : ZenzFeedbackCandidate) : Int32 × Int32 × Int32 × Bytes :=
  (candidate.totalScore, candidate.positiveScore, candidate.negativeScore, candidate.value)

abbrev rankLess : Int32 × Int32 × Int32 × Bytes → Int32 × Int32 × Int32 × Bytes → Bool :=
  lexLess descending (lexLess descending (lexLess ascending ascending))

theorem candidateLess_eq (a b : ZenzFeedbackCandidate) :
    candidateLess a b = rankLess (rank a) (rank b) := by
  rw [candidateLess, rankLess, lexLess_eq_ite, lexLess_eq_ite, lexLess_eq_ite]
  rfl

theorem pairwise_getRankedCandidates (records : List ParsedFeedbackRecord) (key contextClass : Bytes) :
    (getRankedCandidates records key contextClass).Pairwise fun a b =>
      candidateLess a b = true ∧ candidateLess b a = false := by
  have hdistinct : ((((valueCounts records key contextClass).entries.filterMap candidateOfCounts)).map
      rank).Nodup := by
    refine List.pairwise_map.mpr (List.pairwise_filterMap.mpr ?_)
    refine (valueCounts records key contextClass).sorted.imp ?_
    rintro ⟨v, c⟩ ⟨v', c'⟩ hless candidate hcandidate candidate' hcandidate' heq
    obtain ⟨-, rfl⟩ := candidateOfCounts_eq_some_iff.mp hcandidate
    obtain ⟨-, rfl⟩ := candidateOfCounts_eq_some_iff.mp hcandidate'
    have hvalue : v = v' := congrArg (fun r => r.2.2.2) heq
    exact StrictLess.ne hless hvalue
  have hsorted := @pairwise_insertionSort_less _ _ rankLess _ rank
    (fun a b => ¬ candidateLess b a = true) _ (fun a b => by
      rw [candidateLess_eq, Bool.not_eq_true]) _ hdistinct
  refine hsorted.imp fun {a b} hless => ?_
  rw [candidateLess_eq, candidateLess_eq]
  exact ⟨hless, StrictLess.asymm hless⟩

theorem loadCounts_perm (h : records.Perm records') : loadCounts records = loadCounts records' := by
  rw [loadCounts_eq_totals, loadCounts_eq_totals, OrderedMap.totals_perm h]

/-- `Decide` prefers exactly the values that `GetRankedCandidates` returns, with the same counts,
scores and reason; these stand in a strict order, none of them is hard-rejected, by itself or by a
record that the query takes into account, and the order of the records does not matter. -/
theorem decide_iff_ranked (records : List ParsedFeedbackRecord) (key contextClass value : Bytes) :
    ((decideValue records key contextClass value).action = .kPrefer ↔
      ∃ candidate ∈ getRankedCandidates records key contextClass, candidate.value = value) ∧
    (∀ candidate ∈ getRankedCandidates records key contextClass, candidate.value = value →
      candidate = candidateOfDecision value (decideValue records key contextClass value)) ∧
    (getRankedCandidates records key contextClass).Pairwise (fun a b =>
      candidateLess a b = true ∧ candidateLess b a = false) ∧
    (∀ candidate ∈ getRankedCandidates records key contextClass, candidate.hardRejected = false ∧
      ∀ record ∈ records, record.key = key → record.value = candidate.value →
        isPromotionCompatibleContextClass (normalizeContextClass contextClass) record.contextClass →
        record.action = str "rejected" → isHardRejectReason record.reason = false) ∧
    ∀ records' : List ParsedFeedbackRecord, records.Perm records' →
      decideValue records' key contextClass value = decideValue records key contextClass value ∧
      getRankedCandidates records' key contextClass = getRankedCandidates records key contextClass := by
  refine ⟨?_, ?_, pairwise_getRankedCandidates records key contextClass, ?_, ?_⟩
  · constructor
    · intro hprefer
      exact ⟨candidateOfDecision value (decideValue records key contextClass value),
        mem_getRankedCandidates_iff.mpr ⟨hprefer, rfl⟩, rfl⟩
    · rintro ⟨candidate, hmem, rfl⟩
      exact (mem_getRankedCandidates_iff.mp hmem).1
  · rintro candidate hmem rfl
    exact (mem_getRankedCandidates_iff.mp hmem).2
  · intro candidate hmem
    obtain ⟨hprefer, heq⟩ := mem_getRankedCandidates_iff.mp hmem
    rw [decideValue_eq] at hprefer heq
    have hsum := hardRejected_of_prefer hprefer
    constructor
    · rw [heq, candidateOfDecision]
      dsimp only
      rw [buildDecisionFromCounts]
      dsimp only
      split
      · rename_i hhard
        rw [hsum] at hhard
        cases hhard
      · split <;> exact hsum
    · intro record hrecord hkey hvalue hcompatible haction
      rw [Bool.eq_false_iff]
      intro hhard
      have hconsulted : recordCounts record ∈ (records.filter fun record =>
          isConsulted key contextClass (recordKey record) &&
            record.value == candidate.value).map recordCounts := by
        refine List.mem_map_of_mem (List.mem_filter.mpr ⟨hrecord, ?_⟩)
        rw [Bool.and_eq_true, isConsulted, Bool.and_eq_true, beq_iff_eq, beq_iff_eq]
        exact ⟨⟨hkey, hcompatible⟩, hvalue⟩
      have hcounts : (recordCounts record).hardRejected = true := by
        rw [recordCounts, haction, if_neg (by decide), if_pos rfl]
        exact hhard
      have hsum' := hardRejected_sum_of_mem hconsulted hcounts
      rw [consultedCounts, hsum'] at hsum
      cases hsum
  · intro records' hperm
    rw [decideValue, decideValue, getRankedCandidates, getRankedCandidates, valueCounts, valueCounts,
      loadCounts_perm hperm]
    exact ⟨rfl, rfl⟩

/-- A record of one letter as its key and its value. -/
def letterRecord (action contextClass reason : Bytes) : ParsedFeedbackRecord :=
  { action := action, key := [0x61], contextClass := contextClass, value := [0x61], reason := reason }

/-- An acceptance and a hard rejection, in both orders. -/
theorem decide_iff_ranked_hardReject :
    decideValue [letterRecord (str "rejected") (str "empty") (str "hard_reject"),
        letterRecord (str "accepted") (str "legacy") []] [0x61] [] [0x61] =
      decideValue [letterRecord (str "accepted") (str "legacy") [],
        letterRecord (str "rejected") (str "empty") (str "hard_reject")] [0x61] [] [0x61] :=
  ((decide_iff_ranked [letterRecord (str "accepted") (str "legacy") [],
    letterRecord (str "rejected") (str "empty") (str "hard_reject")] [0x61] [] [0x61]).2.2.2.2 _
    (.swap _ _ [])).1

theorem answers_congr (h : (records.filter fun record => isConsulted key contextClass (recordKey record)) =
      records'.filter fun record => isConsulted key contextClass (recordKey record)) (value : Bytes) :
    decideValue records key contextClass value = decideValue records' key contextClass value ∧
      getRankedCandidates records key contextClass = getRankedCandidates records' key contextClass := by
  constructor
  · rw [decideValue_eq, decideValue_eq, consultedCounts, consultedCounts]
    simp only [Bool.and_comm _ (_ == value)]
    rw [← List.filter_filter, ← List.filter_filter, h]
  · rw [getRankedCandidates, getRankedCandidates, valueCounts_eq, valueCounts_eq, h]

theorem isSensitive_of_isConsulted {record : ParsedFeedbackRecord}
    (h : isConsulted key contextClass (recordKey record) = true) :
    isSensitiveFeedbackContextClass record.contextClass =
      isSensitiveFeedbackContextClass (normalizeContextClass contextClass) := by
  rw [isConsulted, Bool.and_eq_true] at h
  have hcompatible := h.2
  rw [isPromotionCompatibleContextClass] at hcompatible
  split at hcompatible
  · rename_i heq
    rw [heq]
    rfl
  split at hcompatible
  · cases hcompatible
  · rename_i hnot
    rw [Bool.not_eq_true, Bool.or_eq_false_iff] at hnot
    exact hnot.2.trans hnot.1.symm

theorem filter_isConsulted {sensitive : Bool}
    (hclass : isSensitiveFeedbackContextClass (normalizeContextClass contextClass) = sensitive)
    (records : List ParsedFeedbackRecord) :
    ((records.filter fun record => isSensitiveFeedbackContextClass record.contextClass == sensitive).filter
        fun record => isConsulted key contextClass (recordKey record)) =
      records.filter fun record => isConsulted key contextClass (recordKey record) := by
  rw [List.filter_filter]
  apply List.filter_congr
  intro record _
  rcases hconsulted : isConsulted key contextClass (recordKey record) with _ | _
  · rfl
  · rw [isSensitive_of_isConsulted hconsulted, hclass, beq_self_eq_true]
    rfl

/-- Records of sensitive contexts have no influence on the answers for other context classes, and the
other records none on the answers for the sensitive one. -/
theorem sensitive_noninterference (records records' : List ParsedFeedbackRecord) (key value : Bytes) :
    ((records.filter fun record => record.contextClass ≠ str "sensitive_like") =
        (records'.filter fun record => record.contextClass ≠ str "sensitive_like") →
      ∀ contextClass, contextClass ≠ str "sensitive_like" →
        decideValue records key contextClass value = decideValue records' key contextClass value ∧
        getRankedCandidates records key contextClass =
          getRankedCandidates records' key contextClass) ∧
    ((records.filter fun record => record.contextClass = str "sensitive_like") =
        (records'.filter fun record => record.contextClass = str "sensitive_like") →
      decideValue records key (str "sensitive_like") value =
        decideValue records' key (str "sensitive_like") value ∧
      getRankedCandidates records key (str "sensitive_like") =
        getRankedCandidates records' key (str "sensitive_like")) := by
  have hsensitive : ∀ record : ParsedFeedbackRecord,
      isSensitiveFeedbackContextClass record.contextClass =
        decide (record.contextClass = str "sensitive_like") := fun _ => beq_eq_decide _ _
  constructor
  · intro h contextClass hne
    have hclass : isSensitiveFeedbackContextClass (normalizeContextClass contextClass) = false := by
      rw [normalizeContextClass]
      split
      · decide
      · exact beq_eq_false_iff_ne.mpr hne
    have hother : ∀ record : ParsedFeedbackRecord,
        (isSensitiveFeedbackContextClass record.contextClass == false) =
          decide (record.contextClass ≠ str "sensitive_like") := by
      intro record
      rw [hsensitive, decide_not, beq_false]
    apply answers_congr
    rw [← filter_isConsulted hclass records, ← filter_isConsulted hclass records']
    simp only [hother, h]
  · intro h
    have hclass : isSensitiveFeedbackContextClass (normalizeContextClass (str "sensitive_like")) =
        true := by decide
    have hsame : ∀ record : ParsedFeedbackRecord,
        (isSensitiveFeedbackContextClass record.contextClass == true) =
          decide (record.contextClass = str "sensitive_like") := by
      intro record
      rw [hsensitive, beq_true]
    apply answers_congr
    rw [← filter_isConsulted hclass records, ← filter_isConsulted hclass records']
    simp only [hsame, h]

/-- An acceptance in a sensitive context. -/
theorem sensitive_noninterference_one :
    decideValue [letterRecord (str "accepted") (str "sensitive_like") []] [0x61] [] [0x61] =
      decideValue [] [0x61] [] [0x61] :=
  ((sensitive_noninterference [letterRecord (str "accepted") (str "sensitive_like") []] [] [0x61]
    [0x61]).1 (by decide) [] (by decide)).1

end ZenzFeedbackStore

end Mozkey.Session
