import Mozkey.Engine.CommitSegments
import Mozkey.Engine.ResizeKeys

/-! `ApplyPostProcessing` of `converter/converter.cc`: the rewriters, which may ask for a resize and so for
another conversion, the suppression dictionary, and the limit of the candidates.  The rewriters and the
conversion are parameters. -/

namespace Mozkey.Engine

open Base Storage

structure SuppressionDictionary where
  keysValues : List (Bytes × Bytes) := []
  keysOnly : List Bytes := []
  valuesOnly : List Bytes := []
  deriving DecidableEq

namespace SuppressionDictionary

variable (dictionary : SuppressionDictionary)

def isEmpty : Bool :=
  dictionary.keysValues.isEmpty && dictionary.keysOnly.isEmpty && dictionary.valuesOnly.isEmpty

def isSuppressedEntry (key value : Bytes) : Bool :=
  !dictionary.isEmpty &&
    (dictionary.keysValues.contains (key, value) || dictionary.keysOnly.contains key ||
      dictionary.valuesOnly.contains value)

end SuppressionDictionary

structure ConversionRequest where
  requestType : RequestType := .conversion
  key : Bytes := []
  candidatesSizeLimit : Option Int := none
  deriving DecidableEq

structure Rewriter where
  /-- The segment from which on to resize, and the new sizes. -/
  checkResizeSegmentsRequest : ResizableSegments → Option (Nat × List UInt8)
  /-- Whether something has changed, and the segments. -/
  rewrite : ResizableSegments → Bool × ResizableSegments

namespace ResizableSegments

def conversionSegments (s : ResizableSegments) : List ConversionSegment :=
  s.segments.dropWhile ConversionSegment.isHistory

/-- The conversion segments with a function applied to each. -/
def mapConversionSegments (f : ConversionSegment → ConversionSegment) (s : ResizableSegments) :
    ResizableSegments :=
  { s with
    segments := s.segments.takeWhile ConversionSegment.isHistory ++ s.conversionSegments.map f }

theorem conversionSegments_of_head {s : ResizableSegments} {conversion : List ConversionSegment}
    {resized : Bool} (h : ∀ segment ∈ conversion.head?, segment.isHistory = false) :
    conversionSegments
      { segments := s.segments.takeWhile ConversionSegment.isHistory ++ conversion, resized } =
        conversion := by
  have hhistory : ∀ segment ∈ s.segments.takeWhile ConversionSegment.isHistory,
      segment.isHistory = true := fun segment => List.mem_takeWhile_imp
  rw [conversionSegments, List.dropWhile_append_of_pos hhistory]
  cases conversion with
  | nil => rfl
  | cons segment rest => rw [List.dropWhile_cons_of_neg (by simp [h segment rfl])]

theorem head_conversionSegments {s : ResizableSegments} :
    ∀ segment ∈ s.conversionSegments.head?, segment.isHistory = false := by
  intro segment hsegment
  have hhead := List.head?_dropWhile_not ConversionSegment.isHistory s.segments
  rw [show (s.segments.dropWhile ConversionSegment.isHistory).head? = some segment from hsegment] at hhead
  exact hhead

theorem conversionSegments_map {f : ConversionSegment → ConversionSegment}
    (hf : ∀ segment, (f segment).isHistory = segment.isHistory) (s : ResizableSegments) :
    (s.mapConversionSegments f).conversionSegments = s.conversionSegments.map f := by
  refine conversionSegments_of_head fun segment hsegment => ?_
  rw [List.head?_map] at hsegment
  obtain ⟨first, hfirst, rfl⟩ := Option.map_eq_some_iff.mp hsegment
  rw [hf, head_conversionSegments first hfirst]

end ResizableSegments

section

variable (rewriter : Rewriter) (convert : ResizableSegments → ResizableSegments)
  (dictionary : SuppressionDictionary) (request : ConversionRequest)

/-- The resize that the rewriters ask for, where `ResizeSegments` comes to its conversion. -/
def resizeForRewriter (s : ResizableSegments) : Option ResizableSegments :=
  match rewriter.checkResizeSegmentsRequest s with
  | none => none
  | some (segmentIndex, segmentSizes) =>
    if request.requestType ≠ .conversion then none
    else
      let start :=
        ((s.segments.takeWhile ConversionSegment.isHistory).length + segmentIndex) % 2 ^ 64
      if s.segments.length ≤ start then none
      else
        match s.resize start segmentSizes with
        | (true, resized) => some resized
        | (false, _) => none

def suppressCandidates (segment : ConversionSegment) : ConversionSegment :=
  { segment with
    candidates := segment.candidates.filter fun candidate =>
      !dictionary.isSuppressedEntry candidate.key candidate.value }

def rewriteAndSuppress (s : ResizableSegments) : ResizableSegments :=
  let (changed, s) := rewriter.rewrite s
  -- Where the rewriters have changed nothing the suppression is left out, too.
  if !changed then s
  else if dictionary.isEmpty then s
  else s.mapConversionSegments (suppressCandidates dictionary)

/-- `TrimCandidates` of a segment: the candidates that stay. -/
def trimSegment (segment : ConversionSegment) : ConversionSegment :=
  match request.candidatesSizeLimit with
  | none => segment
  | some limit =>
    let candidatesLimit := max 1 ((limit - segment.metaCandidates.length).bmod (2 ^ 32)).toNat
    { segment with candidates := segment.candidates.take candidatesLimit }

def trimCandidates (s : ResizableSegments) : ResizableSegments :=
  s.mapConversionSegments (trimSegment request)

def maybeSetConsumedKeySize (consumedKeySize : Nat) (candidate : SegmentCandidate) : SegmentCandidate :=
  if candidate.attributes &&& partiallyKeyConsumed ≠ 0 then candidate
  else
    { candidate with
      attributes := candidate.attributes ||| partiallyKeyConsumed
      consumedKeySize }

/-- What the requests for a part of the composition do to the first conversion segment. -/
def setConsumedKeySize (s : ResizableSegments) : ResizableSegments :=
  if request.requestType = .partialSuggestion ∨ request.requestType = .partialPrediction then
    let consumedKeySize := charsLen request.key
    { s with
      segments := s.segments.takeWhile ConversionSegment.isHistory ++
        s.conversionSegments.modifyHead fun segment =>
          { segment with
            candidates := segment.candidates.map (maybeSetConsumedKeySize consumedKeySize)
            metaCandidates := segment.metaCandidates.map (maybeSetConsumedKeySize consumedKeySize) } }
  else s

/-- `ApplyPostProcessing`, with `RewriteAndSuppressCandidates`, whose resize converts the segments and
starts again. -/
def applyPostProcessing : (fuel : Nat) → ResizableSegments → Option ResizableSegments
  | 0, _ => none
  | fuel + 1, s => do
    let s ← match resizeForRewriter rewriter request s with
      | some resized => applyPostProcessing fuel (convert resized)
      | none => some (rewriteAndSuppress rewriter dictionary s)
    return setConsumedKeySize request (trimCandidates request s)

def NoneSuppressed (s : ResizableSegments) : Prop :=
  ∀ segment ∈ s.conversionSegments, ∀ candidate ∈ segment.candidates,
    dictionary.isSuppressedEntry candidate.key candidate.value = false

inductive Settles : ResizableSegments → ResizableSegments → Prop
  | stays {s : ResizableSegments} (h : resizeForRewriter rewriter request s = none) : Settles s s
  | resizes {s resized settled : ResizableSegments}
    (h : resizeForRewriter rewriter request s = some resized) (rest : Settles (convert resized) settled) :
    Settles s settled

end

section

variable {rewriter : Rewriter} {convert : ResizableSegments → ResizableSegments}
  {dictionary : SuppressionDictionary} {request : ConversionRequest} {s settled result : ResizableSegments}

theorem requestType_of_resizeForRewriter {resized : ResizableSegments}
    (h : resizeForRewriter rewriter request s = some resized) : request.requestType = .conversion := by
  rw [resizeForRewriter] at h
  split at h
  · cases h
  split at h
  · cases h
  · rename_i htype
    exact not_not.mp htype

theorem trimSegment_trimSegment (segment : ConversionSegment) :
    trimSegment request (trimSegment request segment) = trimSegment request segment := by
  simp only [trimSegment]
  cases request.candidatesSizeLimit with
  | none => rfl
  | some limit => simp only [List.take_take, min_self]

theorem trimSegment_isHistory (segment : ConversionSegment) :
    (trimSegment request segment).isHistory = segment.isHistory := by
  rw [trimSegment]
  split <;> rfl

theorem mem_of_mem_trimSegment {segment : ConversionSegment} {candidate : SegmentCandidate}
    (h : candidate ∈ (trimSegment request segment).candidates) : candidate ∈ segment.candidates := by
  rw [trimSegment] at h
  split at h
  · exact h
  · exact List.mem_of_mem_take h

theorem mapConversionSegments_map {f g : ConversionSegment → ConversionSegment}
    (hf : ∀ segment, (f segment).isHistory = segment.isHistory) :
    (s.mapConversionSegments f).mapConversionSegments g = s.mapConversionSegments (g ∘ f) := by
  have hhistory : ∀ segment ∈ s.segments.takeWhile ConversionSegment.isHistory,
      segment.isHistory = true := fun segment => List.mem_takeWhile_imp
  have htake : (s.mapConversionSegments f).segments.takeWhile ConversionSegment.isHistory =
      s.segments.takeWhile ConversionSegment.isHistory := by
    have hconversion := ResizableSegments.conversionSegments_map hf s
    have hsplit := List.takeWhile_append_dropWhile (p := ConversionSegment.isHistory)
      (l := (s.mapConversionSegments f).segments)
    rw [show (s.mapConversionSegments f).segments.dropWhile ConversionSegment.isHistory = _ from
      hconversion] at hsplit
    exact List.append_cancel_right hsplit
  rw [ResizableSegments.mapConversionSegments, htake, ResizableSegments.conversionSegments_map hf,
    List.map_map]
  rfl

theorem trimCandidates_trimCandidates : trimCandidates request (trimCandidates request s) =
    trimCandidates request s := by
  rw [trimCandidates, trimCandidates, mapConversionSegments_map trimSegment_isHistory]
  rw [show trimSegment request ∘ trimSegment request = trimSegment request from
    funext trimSegment_trimSegment]

theorem applyPostProcessing_eq_some_iff :
    (∃ fuel, applyPostProcessing rewriter convert dictionary request fuel s = some result) ↔
      ∃ settled, Settles rewriter convert request s settled ∧
        result = setConsumedKeySize request
          (trimCandidates request (rewriteAndSuppress rewriter dictionary settled)) := by
  constructor
  · rintro ⟨fuel, h⟩
    induction fuel generalizing s result with
    | zero => cases h
    | succ fuel ih =>
      rw [applyPostProcessing] at h
      cases hresize : resizeForRewriter rewriter request s with
      | none =>
        rw [hresize] at h
        cases h
        exact ⟨s, .stays hresize, rfl⟩
      | some resized =>
        rw [hresize] at h
        obtain ⟨inner, hinner, hresult⟩ := Option.bind_eq_some_iff.mp h
        cases hresult
        obtain ⟨settled, hsettles, rfl⟩ := ih hinner
        refine ⟨settled, .resizes hresize hsettles, ?_⟩
        -- The trimming of the outer call finds nothing left to do.
        have hpartial : ¬ (request.requestType = .partialSuggestion ∨
            request.requestType = .partialPrediction) := by
          rw [requestType_of_resizeForRewriter hresize]
          decide
        simp only [setConsumedKeySize, if_neg hpartial, trimCandidates_trimCandidates]
  · rintro ⟨settled, hsettles, rfl⟩
    induction hsettles with
    | stays hresize => exact ⟨1, by rw [applyPostProcessing, hresize]; rfl⟩
    | @resizes s resized settled hresize _ ih =>
      obtain ⟨fuel, hfuel⟩ := ih
      refine ⟨fuel + 1, ?_⟩
      have hpartial : ¬ (request.requestType = .partialSuggestion ∨
          request.requestType = .partialPrediction) := by
        rw [requestType_of_resizeForRewriter hresize]
        decide
      rw [applyPostProcessing, hresize]
      simp only [hfuel, Option.bind_eq_bind, Option.bind_some, setConsumedKeySize, if_neg hpartial,
        trimCandidates_trimCandidates]
      rfl

/-- With the check of the merged rewriters, which resize only once, it comes to an end. -/
theorem applyPostProcessing_isSome (dictionary : SuppressionDictionary)
    (honce : ∀ s : ResizableSegments, s.resized = true → rewriter.checkResizeSegmentsRequest s = none)
    (hconvert : ∀ s, (convert s).resized = s.resized) (s : ResizableSegments) :
    (applyPostProcessing rewriter convert dictionary request (1 + 1) s).isSome := by
  have hlast : ∀ s : ResizableSegments, s.resized = true → resizeForRewriter rewriter request s = none := by
    intro s hresized
    rw [resizeForRewriter, honce s hresized]
  rw [applyPostProcessing]
  cases hresize : resizeForRewriter rewriter request s with
  | none => rfl
  | some resized =>
    have hresized : resized.resized = true := by
      rw [resizeForRewriter] at hresize
      split at hresize
      · cases hresize
      split at hresize
      · cases hresize
      dsimp only at hresize
      split at hresize
      · cases hresize
      split at hresize
      · rename_i hdone
        cases hresize
        rw [ResizableSegments.resize] at hdone
        split at hdone
        · cases hdone
        · cases hdone
          rfl
      · cases hresize
    have hinner : applyPostProcessing rewriter convert dictionary request 1 (convert resized) =
        some (setConsumedKeySize request
          (trimCandidates request (rewriteAndSuppress rewriter dictionary (convert resized)))) := by
      rw [applyPostProcessing, hlast _ ((hconvert resized).trans hresized)]
      rfl
    simp only [hinner]
    rfl

theorem Settles.unique {t u : ResizableSegments} (ht : Settles rewriter convert request s t)
    (hu : Settles rewriter convert request s u) : t = u := by
  induction ht with
  | stays hresize =>
    cases hu with
    | stays => rfl
    | resizes h => cases hresize.symm.trans h
  | resizes hresize _ ih =>
    cases hu with
    | stays h => cases hresize.symm.trans h
    | resizes h rest =>
      obtain rfl := Option.some.inj (hresize.symm.trans h)
      exact ih rest

theorem mem_map_maybeSetConsumedKeySize {consumedKeySize : Nat} {candidates : List SegmentCandidate}
    {P : Bytes → Bytes → Prop} :
    (∀ candidate ∈ candidates.map (maybeSetConsumedKeySize consumedKeySize),
      P candidate.key candidate.value) ↔ ∀ candidate ∈ candidates, P candidate.key candidate.value := by
  have hkeeps : ∀ candidate,
      (maybeSetConsumedKeySize consumedKeySize candidate).key = candidate.key ∧
        (maybeSetConsumedKeySize consumedKeySize candidate).value = candidate.value := by
    intro candidate
    rw [maybeSetConsumedKeySize]
    split <;> exact ⟨rfl, rfl⟩
  simp only [List.mem_map, forall_exists_index, and_imp, forall_apply_eq_imp_iff₂, hkeeps]

theorem noneSuppressed_setConsumedKeySize :
    NoneSuppressed dictionary (setConsumedKeySize request s) ↔ NoneSuppressed dictionary s := by
  rw [setConsumedKeySize]
  split
  swap
  · rfl
  have hhead := @ResizableSegments.head_conversionSegments s
  rw [NoneSuppressed, ResizableSegments.conversionSegments_of_head, NoneSuppressed]
  · cases s.conversionSegments with
    | nil => rfl
    | cons segment rest =>
      simp only [List.modifyHead_cons, List.forall_mem_cons]
      rw [@mem_map_maybeSetConsumedKeySize _ _ fun key value =>
        dictionary.isSuppressedEntry key value = false]
  · intro segment hsegment
    cases hconversion : s.conversionSegments with
    | nil =>
      rw [hconversion] at hsegment
      cases hsegment
    | cons first rest =>
      rw [hconversion] at hsegment hhead
      obtain rfl := Option.some.inj hsegment
      exact hhead first rfl

theorem noneSuppressed_of_isEmpty (h : dictionary.isEmpty = true) : NoneSuppressed dictionary s := by
  intro segment _ candidate _
  rw [SuppressionDictionary.isSuppressedEntry, h]
  rfl

theorem noneSuppressed_trimCandidates (h : NoneSuppressed dictionary s) :
    NoneSuppressed dictionary (trimCandidates request s) := by
  rw [NoneSuppressed, trimCandidates, ResizableSegments.conversionSegments_map trimSegment_isHistory]
  intro segment hsegment candidate hcandidate
  obtain ⟨untrimmed, huntrimmed, rfl⟩ := List.mem_map.mp hsegment
  exact h untrimmed huntrimmed candidate (mem_of_mem_trimSegment hcandidate)

theorem noneSuppressed_map_suppressCandidates :
    NoneSuppressed dictionary (s.mapConversionSegments (suppressCandidates dictionary)) := by
  have hconversion :=
    @ResizableSegments.conversionSegments_map (suppressCandidates dictionary) (fun _ => rfl) s
  rw [NoneSuppressed, hconversion]
  intro segment hsegment candidate hcandidate
  obtain ⟨unsuppressed, -, rfl⟩ := List.mem_map.mp hsegment
  have hkept := (List.mem_filter.mp hcandidate).2
  simpa using hkept

theorem noneSuppressed_rewriteAndSuppress_iff :
    NoneSuppressed dictionary (trimCandidates request (rewriteAndSuppress rewriter dictionary s)) ↔
      (rewriter.rewrite s).1 = true ∨
        NoneSuppressed dictionary (trimCandidates request (rewriter.rewrite s).2) := by
  rw [rewriteAndSuppress]
  rcases rewriter.rewrite s with ⟨_ | _, rewritten⟩
  · simp
  · simp only [Bool.not_true, Bool.false_eq_true, if_false, true_or, iff_true]
    split
    · rename_i hempty
      exact noneSuppressed_of_isEmpty hempty
    · exact noneSuppressed_trimCandidates noneSuppressed_map_suppressCandidates

/-- No suppressed candidate stays exactly if at the end of the resizes the rewriters report a change, or leave
none among the candidates that are kept. -/
theorem applyPostProcessing_noneSuppressed_iff {fuel : Nat}
    (h : applyPostProcessing rewriter convert dictionary request fuel s = some result) :
    NoneSuppressed dictionary result ↔
      ∀ settled, Settles rewriter convert request s settled →
        (rewriter.rewrite settled).1 = true ∨
          NoneSuppressed dictionary (trimCandidates request (rewriter.rewrite settled).2) := by
  obtain ⟨settled, hsettles, rfl⟩ := applyPostProcessing_eq_some_iff.mp ⟨fuel, h⟩
  rw [noneSuppressed_setConsumedKeySize, noneSuppressed_rewriteAndSuppress_iff]
  constructor
  · intro hholds settled' hsettles'
    rwa [hsettles'.unique hsettles]
  · exact fun hholds => hholds settled hsettles

end

section examples

/-- A rewriter that resizes nothing and leaves the segments as they are. -/
def idleRewriter (changed : Bool) : Rewriter where
  checkResizeSegmentsRequest _ := none
  rewrite s := (changed, s)

theorem applyPostProcessing_noneSuppressed_changed :
    let s : ResizableSegments := { segments := [{ candidates := [{ key := [1], value := [2] }] }] }
    let dictionary : SuppressionDictionary := { keysValues := [([1], [2])] }
    ∃ result, applyPostProcessing (idleRewriter true) id dictionary {} 1 s = some result ∧
      (NoneSuppressed dictionary result ↔
        ∀ settled, Settles (idleRewriter true) id {} s settled →
          ((idleRewriter true).rewrite settled).1 = true ∨
            NoneSuppressed dictionary (trimCandidates {} ((idleRewriter true).rewrite settled).2)) :=
  ⟨_, rfl, @applyPostProcessing_noneSuppressed_iff _ _ _ _ _ _ 1 rfl⟩

/-- With no change reported the suppression is left out. -/
theorem not_applyPostProcessing_noneSuppressed :
    ¬ ∀ rewriter convert dictionary request fuel s result,
      applyPostProcessing rewriter convert dictionary request fuel s = some result →
        NoneSuppressed dictionary result := by
  intro h
  have hnone := h (idleRewriter false) id { keysValues := [([1], [2])] } {} 1
    { segments := [{ candidates := [{ key := [1], value := [2] }] }] } _ rfl
  have hsuppressed := hnone { candidates := [{ key := [1], value := [2] }] } (by decide)
    { key := [1], value := [2] } (by decide)
  exact absurd hsuppressed (by decide)

end examples

end Mozkey.Engine
