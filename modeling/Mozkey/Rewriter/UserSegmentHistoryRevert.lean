import Mozkey.Rewriter.UserSegmentHistoryLearning

/-! The revert of a commit: what it deletes from the storage against what the commit learned anew and
the user has erased since. -/

namespace Mozkey.Rewriter

open Base Storage Lib

theorem longestPrefixLoop_spec (committedValue precedingText : Bytes) (size : Nat) :
    longestPrefixLoop committedValue precedingText size ≤ size ∧
    committedValue.take (longestPrefixLoop committedValue precedingText size) <:+ precedingText ∧
    ∀ m ≤ size, committedValue.take m <:+ precedingText →
      m ≤ longestPrefixLoop committedValue precedingText size := by
  induction size with
  | zero => exact ⟨le_rfl, by simp [longestPrefixLoop], fun m hm _ => hm⟩
  | succ size ih =>
    rw [longestPrefixLoop]
    split
    · rename_i hsuffix
      exact ⟨le_rfl, List.isSuffixOf_iff_suffix.mp hsuffix, fun m hm _ => hm⟩
    · rename_i hsuffix
      obtain ⟨hle, htake, hgreatest⟩ := ih
      refine ⟨hle.trans (Nat.le_succ _), htake, fun m hm hm' => hgreatest m ?_ hm'⟩
      rcases Nat.lt_or_eq_of_le hm with hlt | rfl
      · omega
      · exact absurd (List.isSuffixOf_iff_suffix.mpr hm') hsuffix

/-- The greatest prefix of the committed value that the preceding text ends with. -/
theorem longestCommittedPrefixSuffixSize_isGreatest (committedValue precedingText : Bytes) :
    IsGreatest {m | m ≤ committedValue.length ∧ committedValue.take m <:+ precedingText}
      (longestCommittedPrefixSuffixSize committedValue precedingText) := by
  obtain ⟨hle, htake, hgreatest⟩ :=
    longestPrefixLoop_spec committedValue precedingText committedValue.length
  exact ⟨⟨hle, htake⟩, fun m hm => hgreatest m hm.1 hm.2⟩

section entries

variable {writes : List Write}

/-- The key of a feature; a trigger key is none. -/
def Write.featureKey : Write → Option Bytes
  | .trigger _ _ => none
  | .feature key _ _ _ _ => some key

end entries

section revert

variable (pos : PosData) (clock : Nat → UInt32) (request : RewriteRequest)
  (segments : HistorySegments)

/-- The test of a segment whose value is in the committed text. -/
def isCommitted (segment : HistorySegment) : Bool :=
  segment.candidatesSize ≠ 0 && segment.segmentType = .fixedValue

def textOf (indices : List Nat) : Bytes :=
  indices.flatMap fun i =>
    let segment := (targetSegments request segments).segment i
    if isCommitted segment then (segment.candidate 0).value else []

def committedText : Bytes := textOf request segments (targetIndices request segments)

/-- The end of a segment's range in the committed text. -/
def textEnd (i : Nat) : Nat :=
  (textOf request segments ((targetIndices request segments).filter fun j => j ≤ i)).length

/-- The feature keys that `Finish` writes for a segment. -/
def touchedKeys (i : Nat) : List Bytes :=
  if finishes request segments && isFinished ((targetSegments request segments).segment i) then
    (segmentWrites pos request (targetSegments request segments) i 0).filterMap Write.featureKey
  else []

variable (st : HistoryState) (backspaced : RewriteRequest)

/-- A feature that was not learned before the commit, and none of its segments is in what is left
of the committed text. -/
def Revertible (key : Bytes) : Prop :=
  learnedIn kSeedValue st.items key = none ∧
    ∀ i ∈ targetIndices request segments, key ∈ touchedKeys pos request segments i →
      retainedSize backspaced (committedText request segments) < textEnd request segments i

/-- Of the features that are learned when `Finish` returns, the revert deletes just those that the
commit has learned anew and the user has erased. -/
def RevertsExactly : Prop :=
  let finished := st.finish pos clock request segments
  let reverted := (finished.revert segments).maybeApplyPendingRevert backspaced
  ∀ key, learnedIn kSeedValue finished.items key ≠ none →
    (learnedIn kSeedValue reverted.items key = none ↔
      Revertible pos request segments st backspaced key)

/-- What a revert right after the commit finds: the first write of each feature key with its range,
or, where the commit writes no feature, what was there before. -/
def revertData : Option PendingRevert :=
  let revertEntries := recordEntries (finishWrites pos request segments) []
  if revertEntries ≠ [] then some ⟨revertEntries, committedValue request segments⟩
  else st.revertCache.lookup segments.revertId <|> st.pendingRevert

/-- An entry that ends behind what is left of the committed value. -/
def Erased (pendingRevert : PendingRevert) (entry : RevertEntry) : Prop :=
  entry.key ≠ [] ∧ retainedSize backspaced pendingRevert.committedValue < entry.valueEnd

/-- The features that the writes leave learned and whose fingerprint an erased entry has are just
those that were not learned before and that the user has erased. -/
def RecordsExactly : Prop :=
  ∀ key, learnedIn kSeedValue
    (applyWrites clock (finishWrites pos request segments) st.items) key ≠ none →
    ((∃ pendingRevert ∈ revertData pos request segments st, ∃ entry ∈ pendingRevert.entries,
      Erased backspaced pendingRevert entry ∧
      legacyFingerprintWithSeed key kSeedValue = legacyFingerprintWithSeed entry.key kSeedValue) ↔
      Revertible pos request segments st backspaced key)

theorem deletesIn_revertedKeys {pendingRevert : PendingRevert} {key : Bytes} :
    deletesIn kSeedValue (revertedKeys backspaced pendingRevert) key = true ↔
      ∃ entry ∈ pendingRevert.entries, Erased backspaced pendingRevert entry ∧
        legacyFingerprintWithSeed key kSeedValue = legacyFingerprintWithSeed entry.key kSeedValue := by
  simp only [deletesIn, revertedKeys, List.any_map, List.any_filter, List.any_eq_true, Erased,
    Function.comp_apply, Bool.and_eq_true, decide_eq_true_eq, Bool.not_eq_true', decide_eq_false_iff_not,
    not_le]

theorem items_revert : ((st.revert segments).items) = st.items := by
  rw [HistoryState.revert]
  split <;> rfl

theorem pendingRevert_revert :
    ((st.finish pos clock request segments).revert segments).pendingRevert =
      revertData pos request segments st := by
  rw [HistoryState.revert, revertData]
  by_cases hentries : recordEntries (finishWrites pos request segments) [] = []
  · simp only [HistoryState.finish, hentries, ne_eq, not_true_eq_false, if_false]
    cases st.revertCache.lookup segments.revertId <;> rfl
  · simp only [HistoryState.finish, ne_eq, hentries, not_false_eq_true, if_true]
    rw [RecencyList.insert, RecencyList.lookup_cons, if_pos rfl]

end revert

section storage

/-- A write of `Finish` to the storage itself. -/
def writeStorage (now : UInt32) (s : LruStorage 4) : Write → Option (LruStorage 4)
  | .trigger key candidatesSize =>
    (s.insert now (fingerprintOf s key) (some (keyTriggerValue candidatesSize))).map Prod.snd
  | .feature key _ _ _ force =>
    if key = [] then some s
    else if force then (s.insert now (fingerprintOf s key) (some featureValue)).map Prod.snd
    else (s.tryInsert now (fingerprintOf s key) featureValue).map Prod.snd

def writesStorage : (clock : Nat → UInt32) → List Write → LruStorage 4 → Option (LruStorage 4)
  | _, [], s => some s
  | clock, write :: writes, s => do
    let s ← writeStorage (clock 0) s write
    writesStorage (fun k => clock (k + 1)) writes s

variable {s : LearnedStorage} {now : UInt32} {clock : Nat → UInt32}

theorem insert_spec (hheader : s.header = (kLruSize, kSeedValue)) (hnow : now ≠ 0)
    (hlatest : ∀ x ∈ s.items, x.timestamp ≤ now) (key : Bytes) (value : Vector UInt8 4) :
    ∃ s' : LearnedStorage, (s.storage.insert now (fingerprintOf s.storage key) (some value)).map
        Prod.snd = some s'.storage ∧
      s'.header = (kLruSize, kSeedValue) ∧ s'.items = insertItem now key value s.items := by
  obtain ⟨s₁, hinsert, h₁⟩ := s.holds.insert hnow hlatest (fingerprintOf s.storage key) value
  refine ⟨⟨s₁, s.header, _, h₁⟩, by rw [hinsert]; rfl, hheader, ?_⟩
  simp only [insertItem, s.fingerprintOf_eq, hheader]

theorem tryInsert_spec (hheader : s.header = (kLruSize, kSeedValue)) (hnow : now ≠ 0)
    (hlatest : ∀ x ∈ s.items, x.timestamp ≤ now) (key : Bytes) (value : Vector UInt8 4) :
    ∃ s' : LearnedStorage, (s.storage.tryInsert now (fingerprintOf s.storage key) value).map
        Prod.snd = some s'.storage ∧
      s'.header = (kLruSize, kSeedValue) ∧ s'.items = tryInsertItem now key value s.items := by
  obtain ⟨s₁, hinsert, h₁⟩ := s.holds.tryInsert hnow hlatest (fingerprintOf s.storage key) value
  refine ⟨⟨s₁, s.header, _, h₁⟩, by rw [hinsert]; rfl, hheader, ?_⟩
  simp only [tryInsertItem, s.fingerprintOf_eq, hheader]

theorem writeStorage_spec (hheader : s.header = (kLruSize, kSeedValue)) (hnow : now ≠ 0)
    (hlatest : ∀ x ∈ s.items, x.timestamp ≤ now) (write : Write) :
    ∃ s' : LearnedStorage, writeStorage now s.storage write = some s'.storage ∧
      s'.header = (kLruSize, kSeedValue) ∧ s'.items = applyWrite now s.items write := by
  cases write with
  | trigger key candidatesSize => exact insert_spec hheader hnow hlatest key _
  | feature key value valueBegin valueEnd force =>
    simp only [writeStorage, applyWrite]
    split
    · exact ⟨s, rfl, hheader, rfl⟩
    split
    · exact insert_spec hheader hnow hlatest key _
    · exact tryInsert_spec hheader hnow hlatest key _

theorem timestamp_le_of_applyWrite {items : List (Item 4)} (hlatest : ∀ x ∈ items, x.timestamp ≤ now)
    (write : Write) : ∀ x ∈ applyWrite now items write, x.timestamp ≤ now := by
  have hinsert : ∀ key value, ∀ x ∈ insertItem now key value items, x.timestamp ≤ now := by
    intro key value x hx
    rcases List.mem_cons.mp hx with rfl | hx
    · exact UInt32.le_refl _
    split at hx
    · exact hlatest x (List.mem_of_mem_filter hx)
    split at hx
    · exact hlatest x hx
    · exact hlatest x (List.mem_of_mem_dropLast hx)
  cases write with
  | trigger key candidatesSize => exact hinsert key _
  | feature key value valueBegin valueEnd force =>
    intro x hx
    simp only [applyWrite] at hx
    split at hx
    · exact hlatest x hx
    split at hx
    · exact hinsert key _ x hx
    · rw [tryInsertItem] at hx
      split at hx
      · rcases List.mem_cons.mp hx with rfl | hx
        · exact UInt32.le_refl _
        · exact hlatest x (List.mem_of_mem_filter hx)
      · exact hlatest x hx

/-- As long as the clock goes on, the writes do to the storage what they do to its items. -/
theorem writesStorage_spec (writes : List Write) (hheader : s.header = (kLruSize, kSeedValue))
    (hclock : ∀ k, clock k ≠ 0 ∧ clock k ≤ clock (k + 1))
    (hlatest : ∀ x ∈ s.items, x.timestamp ≤ clock 0) :
    ∃ s' : LearnedStorage, writesStorage clock writes s.storage = some s'.storage ∧
      s'.header = (kLruSize, kSeedValue) ∧ s'.items = applyWrites clock writes s.items := by
  induction writes generalizing s clock with
  | nil => exact ⟨s, rfl, hheader, rfl⟩
  | cons write writes ih =>
    obtain ⟨s₁, hwrite, hheader₁, hitems₁⟩ :=
      writeStorage_spec hheader (hclock 0).1 hlatest write
    obtain ⟨s₂, hwrites, hheader₂, hitems₂⟩ := ih hheader₁ (fun k => hclock (k + 1)) (by
      rw [hitems₁]
      exact fun x hx => UInt32.le_trans (timestamp_le_of_applyWrite hlatest write x hx) (hclock 0).2)
    refine ⟨s₂, ?_, hheader₂, ?_⟩
    · rw [writesStorage, hwrite]
      exact hwrites
    · rw [hitems₂, hitems₁, applyWrites]

/-- The deletions of a revert in the storage itself. -/
def deleteStorage : List Bytes → LruStorage 4 → Option (LruStorage 4)
  | [], s => some s
  | key :: keys, s => do
    let (_, s) ← s.delete (fingerprintOf s key)
    deleteStorage keys s

theorem deleteStorage_spec (keys : List Bytes) : ∃ s' : LearnedStorage,
    deleteStorage keys s.storage = some s'.storage ∧ s'.header = s.header ∧
      s'.items = deleteItems s.header.2 s.items keys := by
  induction keys generalizing s with
  | nil => exact ⟨s, rfl, rfl, by simp [deleteItems]⟩
  | cons key keys ih =>
    obtain ⟨s₁, hdelete, h₁⟩ := s.holds.delete (legacyFingerprintWithSeed key s.header.2)
    obtain ⟨s₂, hdeletes, hheader, hitems⟩ := ih (s := ⟨s₁, s.header, _, h₁⟩)
    refine ⟨s₂, ?_, hheader, ?_⟩
    · rw [deleteStorage, s.fingerprintOf_eq, hdelete]
      exact hdeletes
    · rw [hitems, deleteItems, List.filter_filter, deleteItems]
      refine List.filter_congr fun x _ => ?_
      simp [Bool.and_comm]

end storage

end Mozkey.Rewriter
