import Mozkey.Engine.ConversionSegments

/-! `CommitSegments` of `converter/converter.cc`: the first segments are submitted one by one, each with
one of its candidates moved to the front. -/

namespace Mozkey.Engine

open Storage

def numT13nTypes : Nat := 11

def reranked : UInt32 := 2

def toInt (n : Nat) : Int := (n : Int).bmod (2 ^ 32)

theorem bmod_natCast_le (n m : Nat) : (n : Int).bmod m ≤ n := by
  have hle : ((n % m : Nat) : Int) ≤ n := Int.ofNat_le.mpr (Nat.mod_le n m)
  rw [Int.natCast_mod] at hle
  rw [Int.bmod_def]
  split <;> omega

theorem toInt_le (n : Nat) : toInt n ≤ n := bmod_natCast_le n _

namespace ConversionSegment

def isHistory (segment : ConversionSegment) : Bool :=
  segment.segmentType = .history || segment.segmentType = .submitted

/-- `move_candidate`, which has no result where it reads behind the meta candidates. -/
def moveCandidate (oldIdx : Int) (newIdx : Nat) (segment : ConversionSegment) :
    Option ConversionSegment :=
  if oldIdx < 0 then
    segment.metaCandidates[(-oldIdx - 1).toNat]?.map fun candidate =>
      { segment with
        candidates := segment.candidates.insertIdx (min newIdx segment.candidates.length) candidate }
  else if toInt segment.candidates.length ≤ oldIdx ∨ toInt segment.candidates.length ≤ newIdx ∨
      oldIdx = newIdx then some segment
  else
    segment.candidates[oldIdx.toNat]?.map fun candidate =>
      { segment with candidates := (segment.candidates.eraseIdx oldIdx.toNat).insertIdx newIdx candidate }

def acceptsIndex (candidateIndex : Int) (segment : ConversionSegment) : Bool :=
  -numT13nTypes ≤ candidateIndex && candidateIndex < toInt segment.candidates.length

/-- The index is one of a candidate or of a meta candidate of the segment. -/
def RefersTo (candidateIndex : Int) (segment : ConversionSegment) : Prop :=
  (0 ≤ candidateIndex → candidateIndex < segment.candidates.length) ∧
    (candidateIndex < 0 → -candidateIndex - 1 < segment.metaCandidates.length)

/-- A candidate in front, marked as one that was not there. -/
def markReranked (candidateIndex : Int) (segment : ConversionSegment) : ConversionSegment :=
  if candidateIndex = 0 then segment
  else
    { segment with
      candidates := segment.candidates.modifyHead fun candidate =>
        { candidate with attributes := candidate.attributes ||| reranked } }

/-- What `CommitSegmentValueInternal` does to a segment for an index that it accepts. -/
def commitValue (segmentType : Converter.SegmentType) (candidateIndex : Int)
    (segment : ConversionSegment) : Option ConversionSegment :=
  (moveCandidate candidateIndex 0 { segment with segmentType }).map (markReranked candidateIndex)

end ConversionSegment

/-- `CommitSegmentValueInternal`.  There is no segment at an index for which `GetSegmentIndex` gives
`kErrorIndex`. -/
def commitSegmentValueInternal (segmentIndex : Nat) (candidateIndex : Int)
    (segmentType : Converter.SegmentType) (segments : List ConversionSegment) :
    Option (Bool × List ConversionSegment) :=
  let i := (segments.takeWhile ConversionSegment.isHistory).length + segmentIndex
  match segments[i]? with
  | none => some (false, segments)
  | some segment =>
    if segment.acceptsIndex candidateIndex then
      (segment.commitValue segmentType candidateIndex).map fun segment => (true, segments.set i segment)
    else some (false, segments)

def commitSegments : (candidateIndex : List Nat) → List ConversionSegment →
    Option (Bool × List ConversionSegment)
  | [], segments => some (true, segments)
  | index :: candidateIndex, segments =>
    match commitSegmentValueInternal 0 (toInt index) .submitted segments with
    | some (true, segments) => commitSegments candidateIndex segments
    | result => result

/-- The segments that are no history segments yet. -/
def remaining (segments : List ConversionSegment) : List ConversionSegment :=
  segments.filter fun segment => !segment.isHistory

/-- Each index is committed in the next segment that is no history segment; there the candidate of the
index is in front. -/
def commitEach : (candidateIndex : List Nat) → List ConversionSegment → List ConversionSegment
  | _, [] => []
  | [], segments => segments
  | index :: candidateIndex, segment :: segments =>
    if segment.isHistory then segment :: commitEach (index :: candidateIndex) segments
    else
      (segment.commitValue .submitted (toInt index)).getD segment :: commitEach candidateIndex segments

/-- How many indices are accepted before the first that is not, each by the segment it is for. -/
def acceptedSize : (candidateIndex : List Nat) → List ConversionSegment → Nat
  | index :: candidateIndex, segment :: segments =>
    if segment.acceptsIndex (toInt index) then acceptedSize candidateIndex segments + 1 else 0
  | _, _ => 0

section segment

variable {candidateIndex : Int} {segment committed : ConversionSegment}

/-- An index that is accepted is one of a candidate, or a negative one for which a segment without all
of the transliterations may have no meta candidate. -/
theorem refersTo_of_acceptsIndex (h : segment.acceptsIndex candidateIndex = true) :
    segment.RefersTo candidateIndex ∨
      candidateIndex < 0 ∧ segment.metaCandidates.length < numT13nTypes := by
  rw [ConversionSegment.acceptsIndex, Bool.and_eq_true, decide_eq_true_eq, decide_eq_true_eq] at h
  obtain ⟨hge, hlt⟩ := h
  have hle := toInt_le segment.candidates.length
  rw [ConversionSegment.RefersTo]
  by_cases hmeta : segment.metaCandidates.length < numT13nTypes
  · by_cases hneg : candidateIndex < 0
    · exact .inr ⟨hneg, hmeta⟩
    · exact .inl ⟨fun _ => by omega, fun h => absurd h hneg⟩
  · exact .inl ⟨fun _ => by omega, fun _ => by omega⟩

theorem moveCandidate_segmentType {oldIdx : Int} {newIdx : Nat}
    (h : segment.moveCandidate oldIdx newIdx = some committed) :
    committed.segmentType = segment.segmentType := by
  rw [ConversionSegment.moveCandidate] at h
  split at h
  · obtain ⟨candidate, -, rfl⟩ := Option.map_eq_some_iff.mp h
    rfl
  split at h
  · cases h
    rfl
  · obtain ⟨candidate, -, rfl⟩ := Option.map_eq_some_iff.mp h
    rfl

theorem commitValue_isHistory (h : segment.commitValue .submitted candidateIndex = some committed) :
    committed.isHistory = true := by
  obtain ⟨moved, hmoved, rfl⟩ := Option.map_eq_some_iff.mp h
  have htype := moveCandidate_segmentType hmoved
  rw [ConversionSegment.markReranked]
  split <;> simp [ConversionSegment.isHistory, htype]

theorem exists_commitValue (h : segment.RefersTo candidateIndex) (segmentType : Converter.SegmentType) :
    ∃ committed, segment.commitValue segmentType candidateIndex = some committed := by
  obtain ⟨hcandidate, hmeta⟩ := h
  suffices hmove : ∃ moved, ConversionSegment.moveCandidate candidateIndex 0
      { segment with segmentType } = some moved by
    obtain ⟨moved, hmoved⟩ := hmove
    exact ⟨_, by rw [ConversionSegment.commitValue, hmoved, Option.map_some]⟩
  rw [ConversionSegment.moveCandidate]
  split
  · rename_i hneg
    have hlt : (-candidateIndex - 1).toNat < segment.metaCandidates.length := by
      have := hmeta hneg
      omega
    rw [List.getElem?_eq_getElem hlt]
    exact ⟨_, rfl⟩
  rename_i hneg
  split
  · exact ⟨_, rfl⟩
  · have hlt : candidateIndex.toNat < segment.candidates.length := by
      have := hcandidate (by omega)
      omega
    rw [List.getElem?_eq_getElem hlt]
    exact ⟨_, rfl⟩

end segment

section segments

variable {history rest : List ConversionSegment}

theorem takeWhile_history (hhistory : ∀ segment ∈ history, segment.isHistory = true)
    (hrest : ∀ segment ∈ rest.head?, segment.isHistory = false) :
    (history ++ rest).takeWhile ConversionSegment.isHistory = history := by
  rw [List.takeWhile_append_of_pos hhistory]
  cases rest with
  | nil => simp
  | cons segment rest => simp [hrest segment rfl]

theorem remaining_append (hhistory : ∀ segment ∈ history, segment.isHistory = true) :
    remaining (history ++ rest) = remaining rest := by
  rw [remaining, List.filter_append, List.filter_eq_nil_iff.mpr, List.nil_append, remaining]
  intro segment hsegment
  simp [hhistory segment hsegment]

@[simp] theorem commitEach_nil (segments : List ConversionSegment) : commitEach [] segments = segments := by
  cases segments <;> rfl

theorem commitEach_append (candidateIndex : List Nat)
    (hhistory : ∀ segment ∈ history, segment.isHistory = true) :
    commitEach candidateIndex (history ++ rest) = history ++ commitEach candidateIndex rest := by
  induction history with
  | nil => rfl
  | cons segment history ih =>
    cases candidateIndex with
    | nil => simp
    | cons index candidateIndex =>
      rw [List.cons_append, commitEach, if_pos (hhistory segment List.mem_cons_self),
        ih fun s hs => hhistory s (List.mem_cons_of_mem _ hs), List.cons_append]

end segments

theorem acceptsIndex_of_lt_acceptedSize {candidateIndex : List Nat} {segments : List ConversionSegment}
    {k : Nat} (hk : k < acceptedSize candidateIndex segments) :
    ∃ index segment, candidateIndex[k]? = some index ∧ segments[k]? = some segment ∧
      segment.acceptsIndex (toInt index) = true := by
  fun_induction acceptedSize candidateIndex segments generalizing k with
  | case1 index candidateIndex segment segments haccepts ih =>
    cases k with
    | zero => exact ⟨index, segment, rfl, rfl, haccepts⟩
    | succ k => exact ih (Nat.lt_of_succ_lt_succ hk)
  | case2 => exact absurd hk (Nat.not_lt_zero _)
  | case3 => exact absurd hk (Nat.not_lt_zero _)

theorem commitSegmentValueInternal_append {history rest : List ConversionSegment}
    {segment : ConversionSegment} (hhistory : ∀ segment ∈ history, segment.isHistory = true)
    (hsegment : segment.isHistory = false) (candidateIndex : Int) :
    commitSegmentValueInternal 0 candidateIndex .submitted (history ++ segment :: rest) =
      if segment.acceptsIndex candidateIndex then
        (segment.commitValue .submitted candidateIndex).map fun committed =>
          (true, history ++ committed :: rest)
      else some (false, history ++ segment :: rest) := by
  have htake := @takeWhile_history history (segment :: rest) hhistory (by
    rintro s hs
    obtain rfl := Option.some.inj hs
    exact hsegment)
  have hget : (history ++ segment :: rest)[history.length]? = some segment := by simp
  have hset : ∀ committed, (history ++ segment :: rest).set history.length committed =
      history ++ committed :: rest := fun committed => by simp
  simp only [commitSegmentValueInternal, htake, Nat.add_zero, hget, hset]

theorem commitSegmentValueInternal_history {history : List ConversionSegment}
    (hhistory : ∀ segment ∈ history, segment.isHistory = true) (candidateIndex : Int) :
    commitSegmentValueInternal 0 candidateIndex .submitted history = some (false, history) := by
  have htake := @takeWhile_history history [] hhistory (by simp)
  rw [List.append_nil] at htake
  simp only [commitSegmentValueInternal, htake, Nat.add_zero, List.getElem?_length]

theorem commitSegments_eq {candidateIndex : List Nat} {segments : List ConversionSegment}
    (hrefers : ∀ k < acceptedSize candidateIndex (remaining segments), ∀ index segment,
      candidateIndex[k]? = some index → (remaining segments)[k]? = some segment →
        segment.RefersTo (toInt index)) :
    commitSegments candidateIndex segments =
      some (decide (acceptedSize candidateIndex (remaining segments) = candidateIndex.length),
        commitEach (candidateIndex.take (acceptedSize candidateIndex (remaining segments))) segments) := by
  induction candidateIndex generalizing segments with
  | nil => simp [commitSegments, acceptedSize]
  | cons index candidateIndex ih =>
    have hhistory : ∀ segment ∈ segments.takeWhile ConversionSegment.isHistory,
        segment.isHistory = true := fun segment => List.mem_takeWhile_imp
    have hsplit := (List.takeWhile_append_dropWhile (p := ConversionSegment.isHistory) (l := segments)).symm
    generalize segments.takeWhile ConversionSegment.isHistory = history at hhistory hsplit
    cases hrest : segments.dropWhile ConversionSegment.isHistory with
    | nil =>
      rw [hrest, List.append_nil] at hsplit
      subst hsplit
      have hremaining : remaining segments = [] := by
        rw [← List.append_nil segments, remaining_append hhistory]
        rfl
      rw [commitSegments, commitSegmentValueInternal_history hhistory, hremaining]
      simp [acceptedSize]
    | cons segment rest =>
      have hsegment : segment.isHistory = false := by
        have hhead := List.head?_dropWhile_not ConversionSegment.isHistory segments
        rw [hrest] at hhead
        exact hhead
      rw [hrest] at hsplit
      subst hsplit
      have hremaining : remaining (history ++ segment :: rest) = segment :: remaining rest := by
        rw [remaining_append hhistory, remaining, List.filter_cons_of_pos (by simp [hsegment])]
        rfl
      rw [hremaining] at hrefers ⊢
      rw [commitSegments, commitSegmentValueInternal_append hhistory hsegment]
      by_cases haccepts : segment.acceptsIndex (toInt index) = true
      · have hsize : acceptedSize (index :: candidateIndex) (segment :: remaining rest) =
            acceptedSize candidateIndex (remaining rest) + 1 := by
          rw [acceptedSize, if_pos haccepts]
        rw [hsize] at hrefers ⊢
        obtain ⟨committed, hcommitted⟩ :=
          exists_commitValue (hrefers 0 (Nat.succ_pos _) index segment rfl rfl) .submitted
        have hdone := commitValue_isHistory hcommitted
        have hremaining : remaining (history ++ committed :: rest) = remaining rest := by
          rw [remaining_append hhistory, remaining, List.filter_cons_of_neg (by simp [hdone])]
          rfl
        have hnext := @ih (history ++ committed :: rest) (by
          rw [hremaining]
          intro k hk index' segment' hindex hsegment'
          exact hrefers (k + 1) (Nat.succ_lt_succ hk) index' segment' hindex hsegment')
        rw [hremaining] at hnext
        rw [if_pos haccepts, hcommitted, Option.map_some]
        refine hnext.trans ?_
        have hcommit : ∀ indices, commitEach (index :: indices) (history ++ segment :: rest) =
            commitEach indices (history ++ committed :: rest) := by
          intro indices
          rw [commitEach_append _ hhistory, commitEach_append _ hhistory, commitEach,
            if_neg (by simp [hsegment]), hcommitted, Option.getD_some]
          cases indices with
          | nil => simp
          | cons index' indices => rw [commitEach, if_pos hdone]
        rw [List.take_succ_cons, hcommit, List.length_cons]
        simp only [Nat.add_right_cancel_iff]
      · rw [if_neg haccepts]
        have hsize : acceptedSize (index :: candidateIndex) (segment :: remaining rest) = 0 := by
          rw [acceptedSize, if_neg haccepts]
        rw [hsize, List.take_zero, commitEach_nil]
        rfl

end Mozkey.Engine
