import Mathlib

/-! A bucket of `FlatConcurrentCache` of `base/container/flat_concurrent_cache.h`: its clock, the entry
that an insertion takes the place of, and when that is the one used last. -/

namespace Mozkey.Base.FlatConcurrentCache

structure Slot (κ ν : Type) where
  subhash : UInt8
  accessClock : UInt8
  key : κ
  value : ν
  deriving DecidableEq

structure Bucket (κ ν : Type) where
  slots : List (Slot κ ν) := []
  accessClockVal : UInt8 := 0
  deriving DecidableEq

namespace Bucket

variable {κ ν : Type} [DecidableEq κ] (hash : κ → UInt8)

def findIndex (k : κ) (b : Bucket κ ν) : Option Nat :=
  b.slots.findIdx? fun slot => slot.subhash == hash k && decide (k = slot.key)

def updateClock (index : Nat) (b : Bucket κ ν) : Bucket κ ν :=
  if b.accessClockVal + 1 = 255 then
    { slots := (b.slots.map fun slot => { slot with accessClock := slot.accessClock >>> 1 }).modify index
        fun slot => { slot with accessClock := 128 }
      accessClockVal := 128 }
  else
    { slots := b.slots.modify index fun slot => { slot with accessClock := b.accessClockVal + 1 }
      accessClockVal := b.accessClockVal + 1 }

def clockAt (b : Bucket κ ν) (i : Nat) : UInt8 := (b.slots[i]?.map Slot.accessClock).getD 0

def minIdx (b : Bucket κ ν) : Nat :=
  (List.range' 1 (b.slots.length - 1)).foldl (fun min i => if b.clockAt i < b.clockAt min then i else min) 0

def insert (kGroupSize : ℕ+) (key : κ) (value : ν) (b : Bucket κ ν) : Bucket κ ν :=
  match b.findIndex hash key with
  | some i => updateClock i { b with slots := b.slots.modify i fun slot => { slot with value } }
  | none =>
    let slot := { subhash := hash key, accessClock := b.accessClockVal, key, value }
    if b.slots.length < kGroupSize then { b with slots := b.slots ++ [slot] }
    else { b with slots := b.slots.set b.minIdx slot }

def lookup (key : κ) (b : Bucket κ ν) : Option ν × Bucket κ ν :=
  match b.findIndex hash key with
  | some i => (b.slots[i]?.map Slot.value, b.updateClock i)
  | none => (none, b)

end Bucket

inductive Operation (κ ν : Type) where
  | insert (key : κ) (value : ν)
  | lookup (key : κ)
  deriving DecidableEq

/-- A bucket with the key that was inserted or looked up last. -/
structure History (κ ν : Type) where
  bucket : Bucket κ ν := {}
  recent : Option κ := none
  deriving DecidableEq

namespace History

variable {κ ν : Type} [DecidableEq κ] (hash : κ → UInt8) (kGroupSize : ℕ+)

def step (h : History κ ν) : Operation κ ν → History κ ν
  | .insert key value => { bucket := h.bucket.insert hash kGroupSize key value, recent := some key }
  | .lookup key =>
    { bucket := (h.bucket.lookup hash key).2
      recent := if (h.bucket.findIndex hash key).isSome then some key else h.recent }

def run (operations : List (Operation κ ν)) : History κ ν := operations.foldl (step hash kGroupSize) {}

end History

/-! The claims about a bucket. -/

section statements

variable {κ ν : Type} [DecidableEq κ] (hash : κ → UInt8) (kGroupSize : ℕ+)

def Evicts (b : Bucket κ ν) (key : κ) : Prop :=
  b.findIndex hash key = none ∧ b.slots.length = kGroupSize

/-- All clocks of the bucket stand at the same value, and the key is in its first slot. -/
def TiedAtFront (b : Bucket κ ν) (k : κ) : Prop :=
  (∀ slot ∈ b.slots, ∀ slot' ∈ b.slots, slot.accessClock = slot'.accessClock) ∧
    b.slots.head?.map Slot.key = some k

/-- An insertion that evicts does not evict the entry inserted or looked up last. -/
def KeepsRecent (h : History κ ν) (key : κ) (value : ν) : Prop :=
  Evicts hash kGroupSize h.bucket key → ∀ k, h.recent = some k →
    (h.bucket.insert hash kGroupSize key value).findIndex hash k ≠ none

/-- An update of the clock keeps the order of the other clocks, and that of its slot is above them. -/
def KeepsOrder (b : Bucket κ ν) (index : Nat) : Prop :=
  ∀ i j, i ≠ index → j ≠ index → i < b.slots.length → j < b.slots.length →
    (b.clockAt i ≤ b.clockAt j →
      (b.updateClock index).clockAt i ≤ (b.updateClock index).clockAt j) ∧
      (index < b.slots.length →
        (b.updateClock index).clockAt i < (b.updateClock index).clockAt index)

/-- An entry is found behind its insertion and one more. -/
def FindsInserted (b : Bucket κ ν) (key key' : κ) (value value' : ν) : Prop :=
  key' ≠ key → (((b.insert hash kGroupSize key value).insert hash kGroupSize key' value').lookup
    hash key).1 = some value

end statements

theorem foldl_min_spec (f : Nat → UInt8) (n : Nat) :
    let m := (List.range' 1 n).foldl (fun min i => if f i < f min then i else min) 0
    m ≤ n ∧ (∀ j ≤ n, f m ≤ f j) ∧ ∀ j < m, f m < f j := by
  induction n with
  | zero =>
    refine ⟨Nat.le_refl 0, fun j hj => ?_, fun j hj => by cases hj⟩
    rw [Nat.le_zero.mp hj]
    exact UInt8.le_refl _
  | succ n ih =>
    rw [List.range'_concat, List.foldl_append]
    generalize (List.range' 1 n).foldl (fun min i => if f i < f min then i else min) 0 = m at ih
    obtain ⟨hm, hle, hlt⟩ := ih
    simp only [List.foldl_cons, List.foldl_nil, Nat.one_mul, Nat.add_comm 1 n]
    split
    · rename_i hless
      refine ⟨Nat.le_refl _, fun j hj => ?_, fun j hj => ?_⟩
      · rcases hj.eq_or_lt with rfl | hlt'
        · exact UInt8.le_refl _
        · exact UInt8.le_trans (UInt8.le_of_lt hless) (hle j (Nat.le_of_lt_succ hlt'))
      · exact UInt8.lt_of_lt_of_le hless (hle j (Nat.le_of_lt_succ hj))
    · rename_i hnot
      refine ⟨by omega, fun j hj => ?_, hlt⟩
      rcases hj.eq_or_lt with rfl | hlt'
      · exact UInt8.not_lt.mp hnot
      · exact hle j (Nat.le_of_lt_succ hlt')

variable {κ ν : Type}

namespace Bucket

def nextClockVal (b : Bucket κ ν) : UInt8 :=
  if b.accessClockVal + 1 = 255 then 128 else b.accessClockVal + 1

/-- What an update leaves of the clock of another slot. -/
def aged (b : Bucket κ ν) (clock : UInt8) : UInt8 :=
  if b.accessClockVal + 1 = 255 then clock >>> 1 else clock

variable {b : Bucket κ ν} {index i j : Nat} {c d : UInt8}

theorem toNat_halve (c : UInt8) : (c >>> 1).toNat = c.toNat / 2 := by
  rw [UInt8.toNat_shiftRight]
  exact Nat.shiftRight_eq_div_pow _ 1

theorem aged_le_aged (h : c ≤ d) : b.aged c ≤ b.aged d := by
  rw [aged, aged]
  split
  · rw [UInt8.le_iff_toNat_le, toNat_halve, toNat_halve]
    exact Nat.div_le_div_right (UInt8.le_iff_toNat_le.mp h)
  · exact h

theorem toNat_accessClockVal_lt (h : b.accessClockVal < 255) : b.accessClockVal.toNat < 255 :=
  UInt8.lt_iff_toNat_lt.mp h

theorem toNat_accessClockVal_succ (h : b.accessClockVal < 255) :
    (b.accessClockVal + 1).toNat = b.accessClockVal.toNat + 1 := by
  have := toNat_accessClockVal_lt h
  rw [UInt8.toNat_add, UInt8.toNat_one]
  omega

theorem accessClockVal_succ_eq (h : b.accessClockVal < 255) :
    b.accessClockVal + 1 = 255 ↔ b.accessClockVal.toNat = 254 := by
  rw [← UInt8.toNat_inj, toNat_accessClockVal_succ h]
  exact Nat.succ_inj

theorem toNat_nextClockVal (h : b.accessClockVal < 255) :
    b.nextClockVal.toNat = if b.accessClockVal.toNat = 254 then 128 else b.accessClockVal.toNat + 1 := by
  rw [nextClockVal, apply_ite UInt8.toNat, toNat_accessClockVal_succ h]
  simp only [accessClockVal_succ_eq h]
  rfl

theorem nextClockVal_lt (h : b.accessClockVal < 255) : b.nextClockVal < 255 := by
  have hlt := toNat_accessClockVal_lt h
  refine UInt8.lt_iff_toNat_lt.mpr ?_
  rw [toNat_nextClockVal h]
  show _ < 255
  split <;> omega

theorem aged_lt (h : b.accessClockVal < 255) (hle : c ≤ b.accessClockVal) :
    b.aged c < b.nextClockVal := by
  have hlt := toNat_accessClockVal_lt h
  have hle' := UInt8.le_iff_toNat_le.mp hle
  refine UInt8.lt_iff_toNat_lt.mpr ?_
  rw [toNat_nextClockVal h, aged, apply_ite UInt8.toNat, toNat_halve]
  simp only [accessClockVal_succ_eq h]
  split <;> omega

theorem accessClockVal_updateClock : (b.updateClock index).accessClockVal = b.nextClockVal := by
  rw [updateClock, nextClockVal]
  split <;> rfl

theorem getElem?_updateClock (b : Bucket κ ν) (index j : Nat) :
    (b.updateClock index).slots[j]? = b.slots[j]?.map fun slot =>
    { slot with accessClock := if index = j then b.nextClockVal else b.aged slot.accessClock } := by
  rw [updateClock]
  unfold nextClockVal aged
  split
  · rw [List.getElem?_modify, List.getElem?_map]
    cases b.slots[j]? with
    | none => rfl
    | some slot =>
      simp only [Option.map_some, Option.map_eq_map]
      split <;> rfl
  · rw [List.getElem?_modify]
    cases b.slots[j]? with
    | none => rfl
    | some slot =>
      simp only [Option.map_some, Option.map_eq_map]
      split <;> rfl

theorem length_updateClock : (b.updateClock index).slots.length = b.slots.length := by
  rw [updateClock]
  split
  · rw [List.length_modify, List.length_map]
  · rw [List.length_modify]

theorem map_key_updateClock : (b.updateClock index).slots.map Slot.key = b.slots.map Slot.key := by
  apply List.ext_getElem?
  intro j
  rw [List.getElem?_map, List.getElem?_map, getElem?_updateClock, Option.map_map]
  rfl

theorem clockAt_of_getElem? {slot : Slot κ ν} (h : b.slots[i]? = some slot) :
    b.clockAt i = slot.accessClock := by
  rw [clockAt, h]
  rfl

theorem clockAt_updateClock (hi : i < b.slots.length) :
    (b.updateClock index).clockAt i = if index = i then b.nextClockVal else b.aged (b.clockAt i) := by
  rw [clockAt, getElem?_updateClock, clockAt, List.getElem?_eq_getElem hi]
  rfl

theorem minIdx_spec (hpos : 0 < b.slots.length) : b.minIdx < b.slots.length ∧
    (∀ j < b.slots.length, b.clockAt b.minIdx ≤ b.clockAt j) ∧
      ∀ j < b.minIdx, b.clockAt b.minIdx < b.clockAt j := by
  obtain ⟨hle, hmin, hfirst⟩ := foldl_min_spec b.clockAt (b.slots.length - 1)
  exact ⟨by rw [minIdx]; omega, fun j hj => hmin j (by omega), hfirst⟩

end Bucket

variable {hash : κ → UInt8} {kGroupSize : ℕ+}

structure Keyed (hash : κ → UInt8) (slots : List (Slot κ ν)) : Prop where
  nodup : (slots.map Slot.key).Nodup
  subhash_eq : ∀ slot ∈ slots, slot.subhash = hash slot.key

structure Sound (hash : κ → UInt8) (kGroupSize : ℕ+) (b : Bucket κ ν) : Prop where
  keyed : Keyed hash b.slots
  length_le : b.slots.length ≤ kGroupSize
  clock_le : ∀ slot ∈ b.slots, slot.accessClock ≤ b.accessClockVal
  val_lt : b.accessClockVal < 255

/-- The entry that was used last has the value of the clock. -/
structure Tracked (hash : κ → UInt8) (kGroupSize : ℕ+) (h : History κ ν) : Prop where
  sound : Sound hash kGroupSize h.bucket
  recent : ∀ k, h.recent = some k →
    ∃ slot ∈ h.bucket.slots, slot.key = k ∧ slot.accessClock = h.bucket.accessClockVal

section invariant

variable {b : Bucket κ ν} {i : Nat} {k key : κ} {value : ν} {slot : Slot κ ν}

theorem Keyed.unique {slots : List (Slot κ ν)} {j : Nat} {slot' : Slot κ ν} (h : Keyed hash slots)
    (hi : slots[i]? = some slot) (hj : slots[j]? = some slot') (hkey : slot.key = slot'.key) : i = j := by
  obtain ⟨hilt, rfl⟩ := List.getElem?_eq_some_iff.mp hi
  obtain ⟨hjlt, rfl⟩ := List.getElem?_eq_some_iff.mp hj
  apply (List.nodup_iff_injective_get.mp h.nodup).eq_iff (a := ⟨i, by simpa using hilt⟩)
    (b := ⟨j, by simpa using hjlt⟩) |>.mp (by simpa using hkey) |> Fin.mk.inj_iff.mp

theorem Sound.updateClock (h : Sound hash kGroupSize b) : Sound hash kGroupSize (b.updateClock i) where
  keyed := by
    refine ⟨by rw [Bucket.map_key_updateClock]; exact h.keyed.nodup, fun slot hmem => ?_⟩
    obtain ⟨j, hj⟩ := List.mem_iff_getElem?.mp hmem
    rw [Bucket.getElem?_updateClock] at hj
    obtain ⟨slot', hslot', rfl⟩ := Option.map_eq_some_iff.mp hj
    exact h.keyed.subhash_eq slot' (List.mem_of_getElem? hslot')
  length_le := Bucket.length_updateClock.trans_le h.length_le
  clock_le := by
    intro slot hmem
    obtain ⟨j, hj⟩ := List.mem_iff_getElem?.mp hmem
    rw [Bucket.getElem?_updateClock] at hj
    obtain ⟨slot', hslot', rfl⟩ := Option.map_eq_some_iff.mp hj
    rw [Bucket.accessClockVal_updateClock]
    dsimp only
    split
    · exact UInt8.le_refl _
    · exact UInt8.le_of_lt (Bucket.aged_lt h.val_lt (h.clock_le slot' (List.mem_of_getElem? hslot')))
  val_lt := Bucket.accessClockVal_updateClock ▸ Bucket.nextClockVal_lt h.val_lt

theorem Sound.tracked_updateClock (h : Sound hash kGroupSize b) (hslot : b.slots[i]? = some slot)
    (hkey : slot.key = k) : Tracked hash kGroupSize { bucket := b.updateClock i, recent := some k } := by
  refine ⟨h.updateClock, fun k' hk' => ?_⟩
  cases hk'
  have hget := Bucket.getElem?_updateClock b i i
  rw [hslot, Option.map_some, if_pos rfl] at hget
  exact ⟨_, List.mem_of_getElem? hget, hkey, Bucket.accessClockVal_updateClock.symm⟩

theorem Sound.modify (h : Sound hash kGroupSize b) : Sound hash kGroupSize
    { b with slots := b.slots.modify i fun slot => { slot with value } } := by
  have hslots : ∀ slot ∈ b.slots.modify i fun slot => { slot with value }, ∃ slot' ∈ b.slots,
      slot.subhash = slot'.subhash ∧ slot.key = slot'.key ∧ slot.accessClock = slot'.accessClock := by
    intro slot hmem
    obtain ⟨j, hj⟩ := List.mem_iff_getElem?.mp hmem
    rw [List.getElem?_modify] at hj
    obtain ⟨slot', hslot', rfl⟩ := Option.map_eq_some_iff.mp hj
    refine ⟨slot', List.mem_of_getElem? hslot', ?_⟩
    split <;> exact ⟨rfl, rfl, rfl⟩
  have hkeys : (b.slots.modify i fun slot => { slot with value }).map Slot.key =
      b.slots.map Slot.key := by
    apply List.ext_getElem?
    intro j
    rw [List.getElem?_map, List.getElem?_modify, List.getElem?_map]
    cases b.slots[j]? with
    | none => rfl
    | some slot =>
      simp only [Option.map_some, Option.map_eq_map, Option.some_inj]
      split <;> rfl
  refine ⟨⟨hkeys ▸ h.keyed.nodup, fun slot hmem => ?_⟩, ?_, fun slot hmem => ?_, h.val_lt⟩
  · obtain ⟨slot', hmem', hsub, hkey, -⟩ := hslots slot hmem
    rw [hsub, hkey]
    exact h.keyed.subhash_eq slot' hmem'
  · rw [List.length_modify]
    exact h.length_le
  · obtain ⟨slot', hmem', -, -, hclock⟩ := hslots slot hmem
    rw [hclock]
    exact h.clock_le slot' hmem'

def newSlot (hash : κ → UInt8) (b : Bucket κ ν) (key : κ) (value : ν) : Slot κ ν :=
  { subhash := hash key, accessClock := b.accessClockVal, key, value }

theorem Sound.append (h : Sound hash kGroupSize b) (hnew : ∀ slot ∈ b.slots, slot.key ≠ key)
    (hlt : b.slots.length < kGroupSize) :
    Sound hash kGroupSize { b with slots := b.slots ++ [newSlot hash b key value] } := by
  refine ⟨⟨?_, fun slot hmem => ?_⟩, ?_, fun slot hmem => ?_, h.val_lt⟩
  · rw [List.map_append, List.map_singleton]
    refine h.keyed.nodup.append (List.nodup_singleton _) fun k hk hk' => ?_
    obtain ⟨slot, hmem, rfl⟩ := List.mem_map.mp hk
    exact hnew slot hmem (List.mem_singleton.mp hk')
  · rcases List.mem_append.mp hmem with hmem | hmem
    · exact h.keyed.subhash_eq slot hmem
    · rw [List.mem_singleton.mp hmem]
      rfl
  · rw [List.length_append]
    exact hlt
  · rcases List.mem_append.mp hmem with hmem | hmem
    · exact h.clock_le slot hmem
    · rw [List.mem_singleton.mp hmem]
      exact UInt8.le_refl _

theorem Sound.set (h : Sound hash kGroupSize b) (hnew : ∀ slot ∈ b.slots, slot.key ≠ key) :
    Sound hash kGroupSize { b with slots := b.slots.set i (newSlot hash b key value) } := by
  refine ⟨⟨?_, fun slot hmem => ?_⟩, ?_, fun slot hmem => ?_, h.val_lt⟩
  · rw [List.map_set]
    refine h.keyed.nodup.set fun hk => ?_
    obtain ⟨slot, hmem, hkey⟩ := List.mem_map.mp hk
    exact hnew slot hmem hkey
  · rcases List.mem_or_eq_of_mem_set hmem with hmem | rfl
    · exact h.keyed.subhash_eq slot hmem
    · rfl
  · rw [List.length_set]
    exact h.length_le
  · rcases List.mem_or_eq_of_mem_set hmem with hmem | rfl
    · exact h.clock_le slot hmem
    · exact UInt8.le_refl _

theorem minIdx_lt (hfull : ¬ b.slots.length < kGroupSize) : b.minIdx < b.slots.length :=
  (Bucket.minIdx_spec (kGroupSize.pos.trans_le (Nat.le_of_not_lt hfull))).1

theorem Sound.minIdx_eq (h : Sound hash kGroupSize b) (hslot : b.slots[i]? = some slot)
    (hclock : slot.accessClock = b.accessClockVal) :
    b.minIdx = i ↔ TiedAtFront b slot.key := by
  obtain ⟨hilt, -⟩ := List.getElem?_eq_some_iff.mp hslot
  obtain ⟨hmlt, hmin, hfirst⟩ := Bucket.minIdx_spec (Nat.zero_lt_of_lt hilt)
  have hat := Bucket.clockAt_of_getElem? hslot
  constructor
  · rintro rfl
    have hall : ∀ slot' ∈ b.slots, slot'.accessClock = slot.accessClock := by
      intro slot' hmem
      obtain ⟨j, hj⟩ := List.mem_iff_getElem?.mp hmem
      obtain ⟨hjlt, -⟩ := List.getElem?_eq_some_iff.mp hj
      have hge := hmin j hjlt
      rw [hat, Bucket.clockAt_of_getElem? hj] at hge
      exact UInt8.le_antisymm (hclock ▸ h.clock_le slot' hmem) hge
    refine ⟨fun s hs s' hs' => (hall s hs).trans (hall s' hs').symm, ?_⟩
    obtain hzero | hpos := Nat.eq_zero_or_pos b.minIdx
    · rw [hzero] at hslot
      rw [List.head?_eq_getElem?, hslot]
      rfl
    · have hlt := hfirst 0 hpos
      have hhead : b.slots[0]? = some b.slots[0] := List.getElem?_eq_getElem (Nat.zero_lt_of_lt hilt)
      rw [hat, Bucket.clockAt_of_getElem? hhead, hall _ (List.mem_of_getElem? hhead)] at hlt
      exact absurd hlt (UInt8.lt_irrefl _)
  · rintro ⟨hall, hfront⟩
    rw [List.head?_eq_getElem?] at hfront
    obtain ⟨front, hhead, hkey⟩ := Option.map_eq_some_iff.mp hfront
    obtain rfl := h.keyed.unique hhead hslot hkey
    by_contra hne
    have hlt := hfirst 0 (Nat.pos_of_ne_zero hne)
    have hm : b.slots[b.minIdx]? = some b.slots[b.minIdx] := List.getElem?_eq_getElem hmlt
    rw [hat, Bucket.clockAt_of_getElem? hm,
      hall _ (List.mem_of_getElem? hm) slot (List.mem_of_getElem? hslot)] at hlt
    exact UInt8.lt_irrefl _ hlt

theorem Sound.keepsOrder (h : Sound hash kGroupSize b) (index : Nat) : KeepsOrder b index := by
  intro i j hi hj hilt hjlt
  rw [Bucket.clockAt_updateClock hilt, Bucket.clockAt_updateClock hjlt, if_neg hi.symm, if_neg hj.symm]
  refine ⟨Bucket.aged_le_aged, fun hlt => ?_⟩
  rw [Bucket.clockAt_updateClock hlt, if_pos rfl]
  have hslot : b.slots[i]? = some b.slots[i] := List.getElem?_eq_getElem hilt
  rw [Bucket.clockAt_of_getElem? hslot]
  exact Bucket.aged_lt h.val_lt (h.clock_le _ (List.getElem_mem hilt))

variable [DecidableEq κ]

theorem Keyed.findIndex_eq_none (h : Keyed hash b.slots) :
    b.findIndex hash k = none ↔ ∀ slot ∈ b.slots, slot.key ≠ k := by
  rw [Bucket.findIndex, List.findIdx?_eq_none_iff]
  refine forall₂_congr fun slot hmem => ?_
  rw [h.subhash_eq slot hmem, Bool.and_eq_false_imp, decide_eq_false_iff_not, beq_iff_eq, eq_comm (a := k)]
  exact ⟨fun hne heq => hne (congrArg hash heq) heq, fun hne _ => hne⟩

theorem exists_of_findIndex (h : b.findIndex hash k = some i) :
    ∃ slot, b.slots[i]? = some slot ∧ slot.key = k := by
  obtain ⟨hlt, hp, -⟩ := List.findIdx?_eq_some_iff_getElem.mp h
  rw [Bool.and_eq_true, decide_eq_true_eq] at hp
  exact ⟨b.slots[i], List.getElem?_eq_getElem hlt, hp.2.symm⟩

theorem Keyed.lookup_eq_some (h : Keyed hash b.slots) :
    (b.lookup hash k).1 = some value ↔ ∃ slot ∈ b.slots, slot.key = k ∧ slot.value = value := by
  rw [Bucket.lookup]
  cases hfind : b.findIndex hash k with
  | none =>
    refine iff_of_false (fun hv => by cases hv) fun ⟨slot, hmem, hkey, _⟩ => ?_
    exact h.findIndex_eq_none.mp hfind slot hmem hkey
  | some i =>
    obtain ⟨slot, hslot, hkey⟩ := exists_of_findIndex hfind
    simp only [hslot, Option.map_some, Option.some_inj]
    constructor
    · exact fun hv => ⟨slot, List.mem_of_getElem? hslot, hkey, hv⟩
    · rintro ⟨slot', hmem, hkey', rfl⟩
      obtain ⟨j, hj⟩ := List.mem_iff_getElem?.mp hmem
      obtain rfl := h.unique hslot hj (hkey.trans hkey'.symm)
      rw [Option.some_inj.mp (hslot.symm.trans hj)]

theorem Sound.insert (h : Sound hash kGroupSize b) (key : κ) (value : ν) :
    Sound hash kGroupSize (b.insert hash kGroupSize key value) := by
  rw [Bucket.insert]
  cases hfind : b.findIndex hash key with
  | some i => exact h.modify.updateClock
  | none =>
    have hnew := h.keyed.findIndex_eq_none.mp hfind
    dsimp only
    split
    · rename_i hlt
      exact h.append hnew hlt
    · exact h.set hnew

theorem exists_inserted (hash : κ → UInt8) (kGroupSize : ℕ+) (b : Bucket κ ν) (key : κ) (value : ν) :
    ∃ slot ∈ (b.insert hash kGroupSize key value).slots, slot.key = key ∧ slot.value = value ∧
      slot.accessClock = (b.insert hash kGroupSize key value).accessClockVal := by
  rw [Bucket.insert]
  cases hfind : b.findIndex hash key with
  | some i =>
    obtain ⟨slot, hslot, hkey⟩ := exists_of_findIndex hfind
    have hget := Bucket.getElem?_updateClock
      { b with slots := b.slots.modify i fun slot => { slot with value } } i i
    rw [List.getElem?_modify, hslot, Option.map_eq_map, Option.map_some, if_pos rfl, Option.map_some,
      if_pos rfl] at hget
    exact ⟨_, List.mem_of_getElem? hget, hkey, rfl, Bucket.accessClockVal_updateClock.symm⟩
  | none =>
    dsimp only
    split
    · exact ⟨newSlot hash b key value, List.mem_append_right _ (List.mem_singleton_self _), rfl, rfl, rfl⟩
    · rename_i hfull
      exact ⟨newSlot hash b key value, List.mem_set (minIdx_lt hfull) _, rfl, rfl, rfl⟩

theorem Tracked.step {h : History κ ν} (ht : Tracked hash kGroupSize h) (operation : Operation κ ν) :
    Tracked hash kGroupSize (h.step hash kGroupSize operation) := by
  cases operation with
  | insert key value =>
    refine ⟨ht.sound.insert key value, fun k hk => ?_⟩
    cases hk
    obtain ⟨slot, hmem, hkey, -, hclock⟩ := exists_inserted hash kGroupSize h.bucket key value
    exact ⟨slot, hmem, hkey, hclock⟩
  | lookup key =>
    rw [History.step, Bucket.lookup]
    cases hfind : h.bucket.findIndex hash key with
    | none => exact ht
    | some i =>
      obtain ⟨slot, hslot, hkey⟩ := exists_of_findIndex hfind
      exact ht.sound.tracked_updateClock hslot hkey

theorem tracked_run (hash : κ → UInt8) (kGroupSize : ℕ+) (operations : List (Operation κ ν)) :
    Tracked hash kGroupSize (History.run hash kGroupSize operations) := by
  induction operations using List.reverseRecOn with
  | nil =>
    refine ⟨⟨⟨List.nodup_nil, fun _ hmem => ?_⟩, Nat.zero_le _, fun _ hmem => ?_,
      UInt8.lt_iff_toNat_lt.mpr (Nat.succ_pos _)⟩, fun _ hk => ?_⟩
    · cases hmem
    · cases hmem
    · cases hk
  | append_singleton operations operation ih =>
    rw [History.run, List.foldl_append]
    exact ih.step operation

theorem slots_insert_of_evicts (h : Evicts hash kGroupSize b key) :
    (b.insert hash kGroupSize key value).slots = b.slots.set b.minIdx (newSlot hash b key value) := by
  rw [Bucket.insert, h.1]
  dsimp only
  rw [if_neg (by rw [h.2]; exact Nat.lt_irrefl _)]
  rfl

theorem Sound.insert_of_evicts (h : Sound hash kGroupSize b) (value : ν) (hslot : b.slots[i]? = some slot)
    (hevicts : Evicts hash kGroupSize b key) :
    (b.minIdx = i → (b.insert hash kGroupSize key value).findIndex hash slot.key = none) ∧
      (b.minIdx ≠ i → slot ∈ (b.insert hash kGroupSize key value).slots) := by
  have hnew := h.keyed.findIndex_eq_none.mp hevicts.1
  rw [(h.insert key value).keyed.findIndex_eq_none, slots_insert_of_evicts hevicts]
  constructor
  · rintro rfl slot' hmem hkey
    obtain ⟨j, hj⟩ := List.mem_iff_getElem?.mp hmem
    rw [List.getElem?_set] at hj
    split at hj
    · split at hj
      · cases hj
        exact hnew slot (List.mem_of_getElem? hslot) hkey.symm
      · cases hj
    · rename_i hne
      exact hne (h.keyed.unique hslot hj hkey.symm)
  · intro hne
    refine List.mem_of_getElem? (i := i) ?_
    rw [List.getElem?_set_ne hne]
    exact hslot

theorem insert_of_not_evicts (hle : b.slots.length ≤ kGroupSize) (hmem : slot ∈ b.slots)
    (hne : key ≠ slot.key) (hno : ¬ Evicts hash kGroupSize b key) :
    ∃ slot' ∈ (b.insert hash kGroupSize key value).slots,
      slot'.key = slot.key ∧ slot'.value = slot.value := by
  rw [Bucket.insert]
  cases hfind : b.findIndex hash key with
  | some i =>
    obtain ⟨found, hfound, hkey⟩ := exists_of_findIndex hfind
    obtain ⟨j, hj⟩ := List.mem_iff_getElem?.mp hmem
    have hij : i ≠ j := by
      rintro rfl
      cases hfound.symm.trans hj
      exact hne hkey.symm
    have hget := Bucket.getElem?_updateClock
      { b with slots := b.slots.modify i fun slot => { slot with value } } i j
    rw [List.getElem?_modify, hj, Option.map_eq_map, Option.map_some, if_neg hij, Option.map_some]
      at hget
    exact ⟨_, List.mem_of_getElem? hget, rfl, rfl⟩
  | none =>
    have hlt : b.slots.length < kGroupSize := hle.lt_of_ne fun heq => hno ⟨hfind, heq⟩
    dsimp only
    rw [if_pos hlt]
    exact ⟨slot, List.mem_append_left _ hmem, rfl, rfl⟩

theorem Tracked.keepsRecent_iff {h : History κ ν} (ht : Tracked hash kGroupSize h) (key : κ) (value : ν) :
    KeepsRecent hash kGroupSize h key value ↔
      ¬ (Evicts hash kGroupSize h.bucket key ∧ ∃ k, h.recent = some k ∧ TiedAtFront h.bucket k) := by
  constructor
  · rintro hkeeps ⟨hevicts, k, hk, htied⟩
    obtain ⟨slot, hmem, rfl, hclock⟩ := ht.recent k hk
    obtain ⟨i, hslot⟩ := List.mem_iff_getElem?.mp hmem
    have hmin := (ht.sound.minIdx_eq hslot hclock).mpr htied
    exact hkeeps hevicts _ hk ((ht.sound.insert_of_evicts value hslot hevicts).1 hmin)
  · intro hno hevicts k hk hnone
    obtain ⟨slot, hmem, rfl, hclock⟩ := ht.recent k hk
    obtain ⟨i, hslot⟩ := List.mem_iff_getElem?.mp hmem
    have hmin : h.bucket.minIdx ≠ i := fun heq =>
      hno ⟨hevicts, _, hk, (ht.sound.minIdx_eq hslot hclock).mp heq⟩
    exact (ht.sound.insert key value).keyed.findIndex_eq_none.mp hnone slot
      ((ht.sound.insert_of_evicts value hslot hevicts).2 hmin) rfl

theorem Sound.lookup_insert_iff (h : Sound hash kGroupSize b) (value : ν) (hmem : slot ∈ b.slots)
    (hclock : slot.accessClock = b.accessClockVal) (hne : key ≠ slot.key) :
    ((b.insert hash kGroupSize key value).lookup hash slot.key).1 = some slot.value ↔
      ¬ (Evicts hash kGroupSize b key ∧ TiedAtFront b slot.key) := by
  have hkeyed := (h.insert key value).keyed
  obtain ⟨i, hslot⟩ := List.mem_iff_getElem?.mp hmem
  rw [hkeyed.lookup_eq_some]
  by_cases hevicts : Evicts hash kGroupSize b key
  · obtain ⟨hevicted, hkept⟩ := h.insert_of_evicts value hslot hevicts
    rw [and_iff_right hevicts, ← h.minIdx_eq hslot hclock]
    constructor
    · rintro ⟨slot', hmem', hkey', -⟩ hmin
      exact hkeyed.findIndex_eq_none.mp (hevicted hmin) slot' hmem' hkey'
    · exact fun hmin => ⟨slot, hkept hmin, rfl, rfl⟩
  · exact iff_of_true (insert_of_not_evicts h.length_le hmem hne hevicts) fun hno => hevicts hno.1

theorem Sound.findsInserted_iff (h : Sound hash kGroupSize b) (key key' : κ) (value value' : ν) :
    FindsInserted hash kGroupSize b key key' value value' ↔
      ¬ (key' ≠ key ∧ Evicts hash kGroupSize (b.insert hash kGroupSize key value) key' ∧
        TiedAtFront (b.insert hash kGroupSize key value) key) := by
  obtain ⟨slot, hmem, hkey, hvalue, hclock⟩ :=
    exists_inserted hash kGroupSize b key value
  rw [not_and, FindsInserted]
  refine forall_congr' fun hne => ?_
  rw [← hkey] at hne
  have hiff := (h.insert key value).lookup_insert_iff value' hmem hclock hne
  rw [hkey, hvalue] at hiff
  exact hiff

end invariant

/-- In every run: an insertion keeps the entry that was used last unless all clocks are tied and that
entry is in the first slot; an update of the clock keeps the order; and an entry is found behind one
more insertion under the same condition. -/
theorem recency_iff [DecidableEq κ] (hash : κ → UInt8) (kGroupSize : ℕ+)
    (operations : List (Operation κ ν)) :
    (∀ key value, KeepsRecent hash kGroupSize (History.run hash kGroupSize operations) key value ↔
      ¬ (Evicts hash kGroupSize (History.run hash kGroupSize operations).bucket key ∧
        ∃ k, (History.run hash kGroupSize operations).recent = some k ∧
          TiedAtFront (History.run hash kGroupSize operations).bucket k)) ∧
      (∀ index, KeepsOrder (History.run hash kGroupSize operations).bucket index) ∧
      ∀ key key' value value',
        FindsInserted hash kGroupSize (History.run hash kGroupSize operations).bucket key key' value
            value' ↔
          ¬ (key' ≠ key ∧
            Evicts hash kGroupSize
              ((History.run hash kGroupSize operations).bucket.insert hash kGroupSize key value) key' ∧
            TiedAtFront
              ((History.run hash kGroupSize operations).bucket.insert hash kGroupSize key value) key) := by
  have ht := tracked_run hash kGroupSize operations
  exact ⟨ht.keepsRecent_iff, ht.sound.keepsOrder, ht.sound.findsInserted_iff⟩

/-- The tenth key takes the place of the first one, and the eleventh that of the tenth. -/
theorem not_keepsRecent_tenth :
    ¬ KeepsRecent (fun _ : Nat => 0) 9
        (History.run (fun _ : Nat => 0) 9 ((List.range 10).map fun k => .insert k k)) 10 10 ∧
      (((History.run (fun _ : Nat => 0) 9 ((List.range 10).map fun k => .insert k k)).bucket.insert
        (fun _ : Nat => 0) 9 10 10).lookup (fun _ : Nat => 0) 9).1 = none := by
  refine ⟨fun h => ?_, by decide +kernel⟩
  exact h ⟨by decide +kernel, by decide +kernel⟩ 9 (by decide +kernel) (by decide +kernel)

end Mozkey.Base.FlatConcurrentCache
