import Mozkey.Base.Hash
import Mozkey.Rewriter.FeatureKey
import Mozkey.Storage.LruStorageCorrect

/-! The storage of `UserSegmentHistoryRewriter` (`rewriter/user_segment_history_rewriter.cc`): how it
fetches and deletes a feature, the score of a candidate, and the deletion of a candidate's entry. -/

namespace Mozkey.Storage.LruStorage

open Lib

/-- `Lookup` with the last access time: the item of a fingerprint. -/
def lookupItem {n : Nat} (s : LruStorage n) (fp : UInt64) : Option (Item n) := do
  let node ← s.lruMap.lookup fp
  let i ← s.deref node
  some (s.file.item i)

theorem Holds.lookupItem_eq {n : Nat} {s : LruStorage n} {header : Nat × UInt32}
    {items : List (Item n)} (h : Holds header s items) (fp : UInt64) :
    s.lookupItem fp = items.find? fun x => x.fp = fp := by
  cases hfp : s.lruMap.lookup fp with
  | none =>
    rw [lookupItem, hfp, find?_of_forall_ne (h.absent hfp)]
    rfl
  | some node =>
    obtain ⟨as, bs, i, hlist, hi⟩ := h.split hfp
    rw [lookupItem, hfp, h.find_item hlist hi]
    simp only [Option.bind_eq_bind, Option.bind_some, h.deref_eq hlist]

end Mozkey.Storage.LruStorage

namespace Mozkey.Rewriter

open Base Storage FeatureKey Lib

@[ext] structure Score where
  score : Nat
  lastAccessTime : Nat
  deriving DecidableEq

namespace Score

def zero : Score := ⟨0, 0⟩

def update (a b : Score) : Score :=
  ⟨max a.score b.score, max a.lastAccessTime b.lastAccessTime⟩

end Score

def featureType (value : Vector UInt8 4) : UInt8 := value.toList.headD 0 &&& 1

def featureValue : Vector UInt8 4 := #v[1, 0, 0, 0]

def kLruSize : Nat := 20000

def kSeedValue : UInt32 := 0xf28defe3

def kMaxCandidatesSize : Nat := 255

/-- A `KeyTriggerValue` for so many candidates, which are in its last byte. -/
def keyTriggerValue (candidatesSize : Nat) : Vector UInt8 4 :=
  #v[0, 0, 0, UInt8.ofNat (min candidatesSize kMaxCandidatesSize)]

/-- The storage of the rewriter and the items that it holds. -/
structure LearnedStorage where
  storage : LruStorage 4
  header : Nat × UInt32
  items : List (Item 4)
  holds : storage.Holds header items

def fingerprintOf (s : LruStorage 4) (key : Bytes) : UInt64 :=
  legacyFingerprintWithSeed key s.file.seed

def fetch (s : LruStorage 4) (key : Bytes) (weight : Nat) : Score :=
  if key = [] then .zero
  else
    match s.lookupItem (fingerprintOf s key) with
    | some v => if featureType v.value = 1 then ⟨weight, v.timestamp.toNat⟩ else .zero
    | none => .zero

def deleteEntry (s : LruStorage 4) (key : Bytes) : Option (Bool × LruStorage 4) :=
  match s.lookupItem (fingerprintOf s key) with
  | none => some (false, s)
  | some _ => do
    let (_, s) ← s.delete (fingerprintOf s key)
    some (true, s)

def deleteEntries : List Bytes → LruStorage 4 → Option (Bool × LruStorage 4)
  | [], s => some (false, s)
  | key :: keys, s => do
    let (deleted, s) ← deleteEntry s key
    let (result, s) ← deleteEntries keys s
    some (deleted || result, s)

section score

variable (pos : PosData) (segments : HistorySegments) (segmentIndex : Nat) (candidateIndex : Int)

def replaceable (bestCandidate targetCandidate : HistoryCandidate) : Bool :=
  bestCandidate.functionalValue = targetCandidate.functionalValue &&
    (pos.getPosGroup bestCandidate.lid = pos.getPosGroup targetCandidate.lid ||
      bestCandidate.isT13N || targetCandidate.isT13N)

/-- The features that `GetScore` fetches, in its order and each with its weight. -/
def scoreFeatures : List (Bytes × Nat) :=
  let segmentsSize := segments.conversionSegmentsSize
  let topCandidate := (segments.segment segmentIndex).candidate 0
  let candidate := (segments.segment segmentIndex).candidate candidateIndex
  let allValue := candidate.value
  let contentValue := candidate.contentValue
  let allKey := (segments.segment segmentIndex).key
  let contentKey := candidate.contentKey
  let contextSensitive := segments.resized || candidate.has Attribute.contextSensitive ||
    topCandidate.has Attribute.contextSensitive
  let trigramWeight := if segmentsSize = 3 then 180 else 30
  let bigramWeight := if segmentsSize = 2 then 60 else 10
  let bigramNumberWeight := if segmentsSize = 2 then 50 else 8
  let unigramWeight := if segmentsSize = 1 then 36 else 6
  let singleWeight := if segmentsSize = 1 then 90 else 15
  let isReplaceable := replaceable pos topCandidate candidate
  [(leftRight segments segmentIndex allKey allValue, trigramWeight),
    (leftLeft segments segmentIndex allKey allValue, trigramWeight),
    (rightRight segments segmentIndex allKey allValue, trigramWeight),
    (left segments segmentIndex allKey allValue, bigramWeight),
    (right segments segmentIndex allKey allValue, bigramWeight),
    (single segments allKey allValue, singleWeight),
    (leftNumber pos segments segmentIndex contentKey contentValue, bigramNumberWeight),
    (rightNumber pos segments segmentIndex contentKey contentValue, bigramNumberWeight)] ++
  (if !contextSensitive && isReplaceable then [(current allKey allValue, unigramWeight)] else []) ++
  (if !isReplaceable then []
  else
    [(leftRight segments segmentIndex contentKey contentValue, trigramWeight / 2),
      (leftLeft segments segmentIndex contentKey contentValue, trigramWeight / 2),
      (rightRight segments segmentIndex contentKey contentValue, trigramWeight / 2),
      (left segments segmentIndex contentKey contentValue, bigramWeight / 2),
      (right segments segmentIndex contentKey contentValue, bigramWeight / 2),
      (single segments contentKey contentValue, singleWeight / 2),
      (leftNumber pos segments segmentIndex contentKey contentValue, bigramNumberWeight / 2),
      (rightNumber pos segments segmentIndex contentKey contentValue, bigramNumberWeight / 2)] ++
    (if !contextSensitive then [(current contentKey contentValue, unigramWeight / 2)] else []))

def getScore (s : LruStorage 4) : Score :=
  (scoreFeatures pos segments segmentIndex candidateIndex).foldl
    (fun score feature => score.update (fetch s feature.1 feature.2)) .zero

/-- The keys that `ClearHistoryEntry` deletes: those of the first candidate, whatever the candidate
index is. -/
def clearedKeys : List Bytes :=
  let candidate := (segments.segment segmentIndex).candidate 0
  let key := candidate.key
  let value := candidate.value
  [leftRight segments segmentIndex key value, leftLeft segments segmentIndex key value,
    rightRight segments segmentIndex key value, left segments segmentIndex key value,
    right segments segmentIndex key value, leftNumber pos segments segmentIndex key value,
    rightNumber pos segments segmentIndex key value, single segments key value, current key value]

def clearHistoryEntry (_candidateIndex : Int) (s : LruStorage 4) : Option (Bool × LruStorage 4) :=
  deleteEntries (clearedKeys pos segments segmentIndex) s

end score

section learned

variable (seed : UInt32) (items : List (Item 4))

/-- The time of a feature's last access, if the items have learned it. -/
def learnedIn (key : Bytes) : Option Nat :=
  if key = [] then none
  else ((items.find? fun x => x.fp = legacyFingerprintWithSeed key seed).filter
    fun v => featureType v.value = 1).map fun v => v.timestamp.toNat

/-- A key is deleted with every other key of its fingerprint. -/
def deletesIn (keys : List Bytes) (key : Bytes) : Bool :=
  keys.any fun k => legacyFingerprintWithSeed key seed = legacyFingerprintWithSeed k seed

/-- The items that are left when the items of some keys are deleted. -/
def deleteItems (keys : List Bytes) : List (Item 4) :=
  items.filter fun x => ∀ key ∈ keys, x.fp ≠ legacyFingerprintWithSeed key seed

/-- What is left of the times when some keys are deleted. -/
def without (time : Bytes → Option Nat) (deleted : Bytes → Bool) (key : Bytes) : Option Nat :=
  if deleted key then none else time key

theorem without_eq_some {time : Bytes → Option Nat} {deleted : Bytes → Bool} {key : Bytes}
    {t : Nat} : without time deleted key = some t ↔ deleted key = false ∧ time key = some t := by
  rw [without]
  cases deleted key <;> simp

theorem learnedIn_deleteItems (keys : List Bytes) :
    learnedIn seed (deleteItems seed items keys) =
      without (learnedIn seed items) (deletesIn seed keys) := by
  funext key
  rw [without, learnedIn, learnedIn, deleteItems, List.find?_filter]
  by_cases hkey : key = []
  · simp [hkey]
  rw [if_neg hkey, if_neg hkey]
  cases hdel : deletesIn seed keys key with
  | true =>
    obtain ⟨k, hk, hfp⟩ := List.any_eq_true.mp hdel
    rw [List.find?_eq_none.mpr]
    · rfl
    · intro x _ hx
      simp only [decide_eq_true_eq] at hx hfp
      exact hx.1 k hk (hx.2.trans hfp)
  | false =>
    have hne : ∀ k ∈ keys,
        legacyFingerprintWithSeed key seed ≠ legacyFingerprintWithSeed k seed := by
      simpa [deletesIn] using hdel
    have hsame : (fun x : Item 4 => decide (decide (∀ k ∈ keys,
        x.fp ≠ legacyFingerprintWithSeed k seed) = true ∧
          decide (x.fp = legacyFingerprintWithSeed key seed) = true)) =
        fun x => decide (x.fp = legacyFingerprintWithSeed key seed) := by
      funext x
      by_cases hx : x.fp = legacyFingerprintWithSeed key seed
      · simpa [hx] using hne
      · simp [hx]
    rw [hsame]
    rfl

end learned

namespace LearnedStorage

variable (s : LearnedStorage)

def learned (key : Bytes) : Option Nat := learnedIn s.header.2 s.items key

def deletes (keys : List Bytes) (key : Bytes) : Bool := deletesIn s.header.2 keys key

theorem fingerprintOf_eq (key : Bytes) :
    fingerprintOf s.storage key = legacyFingerprintWithSeed key s.header.2 := by
  rw [fingerprintOf, ← s.holds.header]

theorem fetch_eq (key : Bytes) (weight : Nat) :
    fetch s.storage key weight =
      ((s.learned key).map fun time => ⟨weight, time⟩).getD .zero := by
  rw [fetch, learned, learnedIn, fingerprintOf_eq, s.holds.lookupItem_eq]
  split
  · rfl
  · cases s.items.find? fun x => x.fp = legacyFingerprintWithSeed key s.header.2 with
    | none => rfl
    | some v => by_cases hv : featureType v.value = 1 <;> simp [Option.filter, hv]

theorem learned_ne_zero {key : Bytes} {time : Nat} (h : s.learned key = some time) : time ≠ 0 := by
  rw [learned, learnedIn] at h
  split at h
  · cases h
  · obtain ⟨v, hv, rfl⟩ := Option.map_eq_some_iff.mp h
    have hmem := List.mem_of_find?_eq_some (Option.filter_eq_some_iff.mp hv).1
    intro hzero
    exact s.holds.used v hmem (UInt32.toNat_inj.mp hzero)

theorem deleteEntry_spec (key : Bytes) : ∃ result, ∃ s' : LearnedStorage,
    deleteEntry s.storage key = some (result, s'.storage) ∧ s'.header = s.header ∧
      s'.items = s.items.filter fun x => x.fp ≠ legacyFingerprintWithSeed key s.header.2 := by
  rw [deleteEntry, fingerprintOf_eq, s.holds.lookupItem_eq]
  cases hfind : s.items.find? fun x => x.fp = legacyFingerprintWithSeed key s.header.2 with
  | none =>
    refine ⟨false, s, rfl, rfl, (filter_of_forall_ne fun x hx heq => ?_).symm⟩
    exact List.find?_eq_none.mp hfind x hx (decide_eq_true heq)
  | some v =>
    obtain ⟨s', hdelete, h'⟩ := s.holds.delete (legacyFingerprintWithSeed key s.header.2)
    exact ⟨true, ⟨s', s.header, _, h'⟩, by simp [hdelete], rfl, rfl⟩

theorem deleteEntries_spec (keys : List Bytes) : ∃ result, ∃ s' : LearnedStorage,
    deleteEntries keys s.storage = some (result, s'.storage) ∧ s'.header = s.header ∧
      s'.items = deleteItems s.header.2 s.items keys := by
  induction keys generalizing s with
  | nil => exact ⟨false, s, rfl, rfl, by simp [deleteItems]⟩
  | cons key keys ih =>
    obtain ⟨deleted, s₁, hentry, hheader, hitems⟩ := s.deleteEntry_spec key
    obtain ⟨result, s₂, hentries, hheader', hitems'⟩ := ih s₁
    refine ⟨deleted || result, s₂, by simp [deleteEntries, hentry, hentries],
      hheader'.trans hheader, ?_⟩
    rw [hitems', deleteItems, hitems, hheader, List.filter_filter, deleteItems]
    refine List.filter_congr fun x _ => ?_
    simp [Bool.and_comm]

theorem exists_singleton (x : Item 4) (hx : x.timestamp ≠ 0) :
    ∃ s : LearnedStorage, s.header = (kLruSize, kSeedValue) ∧ s.items = [x] := by
  obtain ⟨s₀, -, h₀⟩ := LruStorage.openFile_created
    (show StorageFile.createStorageFile 4 kLruSize kSeedValue = some _ from rfl)
  obtain ⟨s₁, -, h₁⟩ := h₀.insert hx (by simp) x.fp x.value
  exact ⟨⟨s₁, _, _, h₁⟩, rfl, rfl⟩

end LearnedStorage

end Mozkey.Rewriter
