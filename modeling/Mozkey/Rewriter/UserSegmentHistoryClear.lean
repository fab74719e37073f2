import Mozkey.Rewriter.UserSegmentHistory

/-! `ClearHistoryEntry` against `GetScore`: when the deletion of a candidate's entry makes its score
zero and leaves the scores of the others as they are. -/

namespace Mozkey.Rewriter

open Base Storage Lib

section scoreOf

variable {time : Bytes → Option Nat} {features : List (Bytes × Nat)} {n : Nat}
  {measure : Bytes × Nat → Nat → Nat} {deleted : Bytes → Bool}

/-- The score of some features by the times of their last accesses. -/
def scoreOf (time : Bytes → Option Nat) (features : List (Bytes × Nat)) : Score :=
  features.foldl (fun score feature => score.update
    (((time feature.1).map fun t => ⟨feature.2, t⟩).getD .zero)) .zero

def best (measure : Bytes × Nat → Nat → Nat) (time : Bytes → Option Nat)
    (features : List (Bytes × Nat)) : Nat :=
  (features.map fun feature => ((time feature.1).map (measure feature)).getD 0).foldl max 0

def byWeight (feature : Bytes × Nat) (_ : Nat) : Nat := feature.2

def byTime (_ : Bytes × Nat) (t : Nat) : Nat := t

theorem scoreOf_eq : scoreOf time features =
    ⟨best byWeight time features, best byTime time features⟩ := by
  have hfold : ∀ init : Score, features.foldl (fun score feature => score.update
      (((time feature.1).map fun t => ⟨feature.2, t⟩).getD .zero)) init =
      ⟨(features.map fun feature => ((time feature.1).map (byWeight feature)).getD 0).foldl max
          init.score,
        (features.map fun feature => ((time feature.1).map (byTime feature)).getD 0).foldl max
          init.lastAccessTime⟩ := by
    induction features with
    | nil => intro init; rfl
    | cons feature features ih =>
      intro init
      rw [List.foldl_cons, ih]
      cases htime : time feature.1 <;>
        simp [htime, Score.update, Score.zero, byWeight, byTime]
  exact hfold .zero

theorem le_best (hn : 0 < n) : n ≤ best measure time features ↔
    ∃ feature ∈ features, ∃ t, time feature.1 = some t ∧ n ≤ measure feature t := by
  have hfold : ∀ init, n ≤ (features.map fun feature =>
      ((time feature.1).map (measure feature)).getD 0).foldl max init ↔
      n ≤ init ∨ ∃ feature ∈ features, ∃ t, time feature.1 = some t ∧ n ≤ measure feature t := by
    induction features with
    | nil => simp
    | cons feature features ih =>
      intro init
      rw [List.map_cons, List.foldl_cons, ih, List.exists_mem_cons_iff, ← or_assoc, le_max_iff]
      refine or_congr (or_congr Iff.rfl ?_) Iff.rfl
      cases time feature.1 with
      | none => simpa using hn.ne'
      | some t => simp
  rw [best, hfold]
  exact or_iff_right (by omega)

theorem best_eq_zero_iff
    (hpos : ∀ feature ∈ features, ∀ t, time feature.1 = some t → 0 < measure feature t) :
    best measure time features = 0 ↔ ∀ feature ∈ features, time feature.1 = none := by
  constructor
  · intro hzero feature hmem
    refine Option.eq_none_iff_forall_ne_some.mpr fun t ht => ?_
    have hlt := hpos feature hmem t ht
    have hle := (le_best hlt).mpr ⟨feature, hmem, t, ht, le_rfl⟩
    omega
  · intro hnone
    by_contra hne
    obtain ⟨feature, hmem, t, ht, -⟩ := (le_best (Nat.pos_of_ne_zero hne)).mp le_rfl
    exact Option.some_ne_none t (ht.symm.trans (hnone feature hmem))

/-- Each learned feature that is deleted is matched by one that is kept and measures no less. -/
def Matched (measure : Bytes × Nat → Nat → Nat) (time : Bytes → Option Nat)
    (features : List (Bytes × Nat)) (deleted : Bytes → Bool) : Prop :=
  ∀ feature ∈ features, ∀ t, time feature.1 = some t → deleted feature.1 = true →
    ∃ kept ∈ features, ∃ t', time kept.1 = some t' ∧ deleted kept.1 = false ∧
      measure feature t ≤ measure kept t'

theorem best_without_eq_iff
    (hpos : ∀ feature ∈ features, ∀ t, time feature.1 = some t → 0 < measure feature t) :
    best measure (without time deleted) features = best measure time features ↔
      Matched measure time features deleted := by
  constructor
  · intro heq feature hmem t ht _
    have hlt := hpos feature hmem t ht
    have hle := (le_best hlt).mpr ⟨feature, hmem, t, ht, le_rfl⟩
    rw [← heq] at hle
    obtain ⟨kept, hkept, t', ht', hle'⟩ := (le_best hlt).mp hle
    obtain ⟨hnot, hlearned⟩ := without_eq_some.mp ht'
    exact ⟨kept, hkept, t', hlearned, hnot, hle'⟩
  · intro hmatched
    refine Nat.le_antisymm (Nat.le_of_not_lt fun hlt => ?_) (Nat.le_of_not_lt fun hlt => ?_)
    · obtain ⟨feature, hmem, t, ht, hle⟩ := (le_best (Nat.zero_lt_of_lt hlt)).mp le_rfl
      have := (le_best (Nat.zero_lt_of_lt hlt)).mpr
        ⟨feature, hmem, t, (without_eq_some.mp ht).2, hle⟩
      omega
    · have hn := Nat.zero_lt_of_lt hlt
      obtain ⟨feature, hmem, t, ht, hle⟩ := (le_best hn).mp le_rfl
      have hkeeps : ∃ kept ∈ features, ∃ t', without time deleted kept.1 = some t' ∧
          best measure time features ≤ measure kept t' := by
        cases hdel : deleted feature.1 with
        | false => exact ⟨feature, hmem, t, without_eq_some.mpr ⟨hdel, ht⟩, hle⟩
        | true =>
          obtain ⟨kept, hkept, t', ht', hnot, hle'⟩ := hmatched feature hmem t ht hdel
          exact ⟨kept, hkept, t', without_eq_some.mpr ⟨hnot, ht'⟩, hle.trans hle'⟩
      have := (le_best hn).mpr hkeeps
      omega

end scoreOf

section clear

variable {pos : PosData} {segments : HistorySegments} {i : Nat} {c : Int}

theorem scoreFeatures_pos : ∀ feature ∈ scoreFeatures pos segments i c, 0 < feature.2 := by
  intro feature hmem
  have hweight : feature.2 ∈ (scoreFeatures pos segments i c).map Prod.snd :=
    List.mem_map_of_mem hmem
  generalize feature.2 = weight at hweight
  simp only [scoreFeatures, List.map_append, List.mem_append] at hweight
  rcases hweight with (hweight | hweight) | hweight
  · simp only [List.map_cons, List.map_nil, List.mem_cons, List.not_mem_nil, or_false] at hweight
    split_ifs at hweight <;> omega
  · split_ifs at hweight <;> simp_all
  · split_ifs at hweight <;> simp_all <;> omega

namespace LearnedStorage

variable (s : LearnedStorage)

theorem getScore_eq : getScore pos segments i c s.storage =
    scoreOf s.learned (scoreFeatures pos segments i c) := by
  simp only [getScore, scoreOf, fetch_eq]

/-- The deletion of a candidate's entry makes its score zero, and a candidate of another key or
value keeps its score. -/
def ClearsOnly (pos : PosData) (segments : HistorySegments) (i : Nat) (c : Int) : Prop :=
  ∃ result s', clearHistoryEntry pos segments i c s.storage = some (result, s') ∧
    getScore pos segments i c s' = .zero ∧
    ∀ j c', j < segments.segmentsSize → (segments.segment j).isValidIndex c' = true →
      (((segments.segment j).candidate c').key, ((segments.segment j).candidate c').value) ≠
        (((segments.segment i).candidate c).key, ((segments.segment i).candidate c).value) →
      getScore pos segments j c' s' = getScore pos segments j c' s.storage

/-- The features of the candidate that are learned are among the deleted keys, and what the
deletion takes from another candidate is matched by what it leaves to it. -/
def Covered (pos : PosData) (segments : HistorySegments) (i : Nat) (c : Int) : Prop :=
  (∀ feature ∈ scoreFeatures pos segments i c, s.learned feature.1 ≠ none →
    s.deletes (clearedKeys pos segments i) feature.1 = true) ∧
  ∀ j c', j < segments.segmentsSize → (segments.segment j).isValidIndex c' = true →
    (((segments.segment j).candidate c').key, ((segments.segment j).candidate c').value) ≠
      (((segments.segment i).candidate c).key, ((segments.segment i).candidate c).value) →
    Matched byWeight s.learned (scoreFeatures pos segments j c')
      (s.deletes (clearedKeys pos segments i)) ∧
    Matched byTime s.learned (scoreFeatures pos segments j c')
      (s.deletes (clearedKeys pos segments i))

theorem byWeight_pos : ∀ feature ∈ scoreFeatures pos segments i c, ∀ t,
    s.learned feature.1 = some t → 0 < byWeight feature t :=
  fun feature hmem _ _ => scoreFeatures_pos feature hmem

theorem byTime_pos : ∀ feature ∈ scoreFeatures pos segments i c, ∀ t,
    s.learned feature.1 = some t → 0 < byTime feature t :=
  fun _ _ _ ht => Nat.pos_of_ne_zero (s.learned_ne_zero ht)

theorem getScore_eq_zero_iff : getScore pos segments i c s.storage = .zero ↔
    ∀ feature ∈ scoreFeatures pos segments i c, s.learned feature.1 = none := by
  rw [getScore_eq, scoreOf_eq, Score.zero, Score.mk.injEq, best_eq_zero_iff s.byWeight_pos,
    best_eq_zero_iff s.byTime_pos, and_self_iff]

theorem clearHistoryEntry_spec (pos : PosData) (segments : HistorySegments) (i : Nat) (c : Int) :
    ∃ result, ∃ s' : LearnedStorage,
      clearHistoryEntry pos segments i c s.storage = some (result, s'.storage) ∧
      s'.learned = without s.learned (s.deletes (clearedKeys pos segments i)) := by
  obtain ⟨result, s', hclear, hheader, hitems⟩ := s.deleteEntries_spec (clearedKeys pos segments i)
  refine ⟨result, s', hclear, ?_⟩
  funext key
  rw [learned, hheader, hitems, learnedIn_deleteItems]
  rfl

variable {s} {s' : LearnedStorage} {deleted : Bytes → Bool}

theorem getScore_eq_iff_of_without (h : s'.learned = without s.learned deleted) :
    getScore pos segments i c s'.storage = getScore pos segments i c s.storage ↔
      Matched byWeight s.learned (scoreFeatures pos segments i c) deleted ∧
      Matched byTime s.learned (scoreFeatures pos segments i c) deleted := by
  rw [getScore_eq, getScore_eq, h, scoreOf_eq, scoreOf_eq, Score.mk.injEq,
    best_without_eq_iff s.byWeight_pos, best_without_eq_iff s.byTime_pos]

theorem getScore_eq_zero_iff_of_without (h : s'.learned = without s.learned deleted) :
    getScore pos segments i c s'.storage = .zero ↔
      ∀ feature ∈ scoreFeatures pos segments i c, s.learned feature.1 ≠ none →
        deleted feature.1 = true := by
  rw [getScore_eq_zero_iff, h]
  refine forall₂_congr fun feature _ => ?_
  rw [without]
  cases deleted feature.1 <;> simp

theorem clearsOnly_iff (s : LearnedStorage) (pos : PosData) (segments : HistorySegments) (i : Nat)
    (c : Int) : s.ClearsOnly pos segments i c ↔ s.Covered pos segments i c := by
  obtain ⟨result, s', hclear, hlearned⟩ := s.clearHistoryEntry_spec pos segments i c
  constructor
  · rintro ⟨result', s₁, hclear', hscore, hothers⟩
    obtain ⟨-, rfl⟩ := Prod.mk.inj (Option.some.inj (hclear'.symm.trans hclear))
    exact ⟨(getScore_eq_zero_iff_of_without hlearned).mp hscore, fun j c' hj hc hne =>
      (getScore_eq_iff_of_without hlearned).mp (hothers j c' hj hc hne)⟩
  · rintro ⟨hdeleted, hmatched⟩
    exact ⟨result, s'.storage, hclear, (getScore_eq_zero_iff_of_without hlearned).mpr hdeleted,
      fun j c' hj hc hne => (getScore_eq_iff_of_without hlearned).mpr (hmatched j c' hj hc hne)⟩

/-- Two candidates of one segment, and the second is learned: the keys of the first are deleted. -/
theorem not_clearsOnly_second : ¬ ∀ (s : LearnedStorage) (pos : PosData)
    (segments : HistorySegments) (i : Nat) (c : Int), i < segments.segmentsSize →
      (segments.segment i).isValidIndex c = true → s.ClearsOnly pos segments i c := by
  intro h
  let first : HistoryCandidate :=
    { key := [97], value := [98], contentKey := [97], contentValue := [98] }
  let second : HistoryCandidate := { first with value := [99], contentValue := [99] }
  let pos : PosData := ⟨fun _ => false, fun _ => false, fun _ => false, fun _ => 0⟩
  let segments : HistorySegments := { segments := [{ key := [97], candidates := [first, second] }] }
  obtain ⟨s, hheader, hitems⟩ := exists_singleton
    ⟨legacyFingerprintWithSeed (FeatureKey.current [97] [99]) kSeedValue, 5, featureValue⟩ (by decide)
  obtain ⟨_, s₁, hclear, hzero, -⟩ := h s pos segments 0 1 (by decide) (by decide)
  obtain ⟨_, s', hclear', hlearned⟩ := s.clearHistoryEntry_spec pos segments 0 1
  obtain ⟨-, rfl⟩ := Prod.mk.inj (Option.some.inj (hclear.symm.trans hclear'))
  have hdeleted := (getScore_eq_zero_iff_of_without hlearned).mp hzero
    (FeatureKey.current [97] [99], 36) (by decide) (by
      rw [learned, hheader, hitems]
      decide +kernel)
  rw [deletes, hheader] at hdeleted
  exact absurd hdeleted (by decide +kernel)

end LearnedStorage

end clear

end Mozkey.Rewriter
