import Mozkey.Storage.LittleEndian

/-! `SerializedStringArray` of `base/container/serialized_string_array.cc`: the check of an image, the
strings in it, and what the check reads. -/

namespace Mozkey.Base.SerializedStringArray

open Storage

abbrev View := { bytes : Bytes // bytes.length < 2 ^ 63 }

/-- The conversion of an unsigned number of 32 bits to `difference_type`. -/
def toInt32 (n : Nat) : Int := if n < 2 ^ 31 then n else n - 2 ^ 32

/-- The conversion of a `difference_type` to `size_t`. -/
def toSizeT (x : Int) : Nat := (x % 2 ^ 64).toNat

/-- An addition of signed numbers, which must not overflow. -/
def addInt32 (x y : Int) : Option Int :=
  if -2 ^ 31 ≤ x + y ∧ x + y < 2 ^ 31 then some (x + y) else none

/-- `u32_array[i]` as a `difference_type`; nothing where it lies outside the data, or `i` is too
large for an index. -/
def u32Array (data : Bytes) (i : Nat) : Option Int :=
  if i < 2 ^ 31 then (loadUint32 data (4 * i)).map toInt32 else none

def minRequiredDataSize (size : Nat) : Nat := (4 + (4 + 4) * size) % 2 ^ 32

/-- The loop of `VerifyData` from `i` on; nothing where it reads outside the data or an addition
overflows. -/
def verifyStrings (data : Bytes) : (count : Nat) → (i : Nat) → (prevStrEnd : Int) → Option Bool
  | 0, _, _ => some true
  | count + 1, i, prevStrEnd => do
    let offset ← u32Array data (2 * i + 1)
    let len ← u32Array data (2 * i + 2)
    if offset < prevStrEnd then some false
    else if data.length ≤ toSizeT len ∨ data.length - toSizeT len < toSizeT offset then some false
    else do
      let strEnd ← addInt32 offset len
      let c ← data[strEnd.toNat]?
      if c ≠ 0 then some false
      else do
        let next ← addInt32 strEnd 1
        verifyStrings data count (i + 1) next

def verifyData (data : Bytes) : Option Bool :=
  if data.length < 4 then some false
  else do
    let size ← loadUint32 data 0
    if data.length < minRequiredDataSize size then some false
    else verifyStrings data size 0 (toInt32 (minRequiredDataSize size))

def size (data : Bytes) : Nat := (loadUint32 data 0).getD 0

def offsetAt (data : Bytes) (index : Nat) : Option Nat := loadUint32 data (4 + 4 * (index * 2 % 2 ^ 32))

def lengthAt (data : Bytes) (index : Nat) : Option Nat :=
  loadUint32 data (4 + 4 * ((index * 2 + 1) % 2 ^ 32))

def dataAt (data : Bytes) (index : Nat) : Option Bytes := do
  let offset ← offsetAt data index
  let len ← lengthAt data index
  if offset + len ≤ data.length then some ((data.drop offset).take len) else none

/-- The string at an index, with a NUL behind it, is read inside of the data. -/
def ReadsString (data : Bytes) (index : Nat) : Prop :=
  ∃ offset len, offsetAt data index = some offset ∧ lengthAt data index = some len ∧
    data[offset + len]? = some 0 ∧ dataAt data index = some ((data.drop offset).take len)

/-- The check reads inside of the data only, and data that it accepts has all its strings. -/
def VerifiesSafely (data : Bytes) : Prop :=
  ∃ accepted, verifyData data = some accepted ∧
    (accepted = true → ∀ i < size data, ReadsString data i)

section checks

variable (data : Bytes)

/-- The offset in the record of the `i`-th string. -/
def recordOffset (i : Nat) : Nat := (loadUint32 data (8 * i + 4)).getD 0

def recordLen (i : Nat) : Nat := (loadUint32 data (8 * i + 8)).getD 0

/-- Where the strings in front of the `i`-th one end. -/
def prevStrEnd : Nat → Int
  | 0 => toInt32 (minRequiredDataSize (size data))
  | i + 1 => recordOffset data i + recordLen data i + 1

structure InRange (i : Nat) : Prop where
  offset_lt : recordOffset data i < 2 ^ 31
  len_lt : recordLen data i < 2 ^ 31
  prevStrEnd_le : prevStrEnd data i ≤ recordOffset data i
  len_lt_length : recordLen data i < data.length
  end_le : recordOffset data i + recordLen data i ≤ data.length

def Terminated (i : Nat) : Prop := data[recordOffset data i + recordLen data i]? = some 0

/-- The strings in front of the `i`-th one are in range and terminated. -/
def Reached (i : Nat) : Prop := ∀ j < i, InRange data j ∧ Terminated data j

/-- The record of the `i`-th string lies in the data, and if its range passes the checks it does not
end with the data; nor is it beyond the numbers of 32 bits. -/
structure StringInside (i : Nat) : Prop where
  index_lt : 2 * i + 2 < 2 ^ 31
  record_le : 8 * i + 12 ≤ data.length
  end_lt_length : InRange data i → recordOffset data i + recordLen data i < data.length
  end_lt : InRange data i → recordOffset data i + recordLen data i < 2 ^ 31
  next_lt : InRange data i → Terminated data i →
    recordOffset data i + recordLen data i + 1 < 2 ^ 31

def ChecksInside : Prop :=
  4 ≤ data.length → minRequiredDataSize (size data) ≤ data.length →
    ∀ i < size data, Reached data i → StringInside data i

end checks

section verify

variable {data : Bytes} {count i n : Nat} {prev : Int}

theorem toInt32_of_lt (h : n < 2 ^ 31) : toInt32 n = n := if_pos h

theorem toSizeT_natCast (h : n < 2 ^ 64) : toSizeT n = n := by
  unfold toSizeT
  omega

theorem toSizeT_toInt32 (h : n < 2 ^ 32) (hsize : 2 ^ 31 ≤ n) : 2 ^ 63 ≤ toSizeT (toInt32 n) := by
  unfold toSizeT toInt32
  split <;> omega

theorem addInt32_eq_some {x y z : Int} :
    addInt32 x y = some z ↔ (-2 ^ 31 ≤ x + y ∧ x + y < 2 ^ 31) ∧ z = x + y := by
  rw [addInt32]
  split
  · rename_i h
    rw [Option.some_inj, eq_comm, and_iff_right h]
  · rename_i h
    exact iff_of_false (Option.some_ne_none _).symm fun hs => h hs.1

theorem record_eq (hrecord : 8 * i + 12 ≤ data.length) :
    loadUint32 data (8 * i + 4) = some (recordOffset data i) ∧
      loadUint32 data (8 * i + 8) = some (recordLen data i) ∧
      recordOffset data i < 2 ^ 32 ∧ recordLen data i < 2 ^ 32 := by
  have hoffset : loadUint32 data (8 * i + 4) = some (recordOffset data i) := by
    rw [recordOffset, loadUint32, if_pos (by omega)]
    rfl
  have hlen : loadUint32 data (8 * i + 8) = some (recordLen data i) := by
    rw [recordLen, loadUint32, if_pos (by omega)]
    rfl
  exact ⟨hoffset, hlen, loadLe_lt hoffset, loadLe_lt hlen⟩

theorem u32Array_record (hindex : 2 * i + 2 < 2 ^ 31) (hrecord : 8 * i + 12 ≤ data.length) :
    u32Array data (2 * i + 1) = some (toInt32 (recordOffset data i)) ∧
      u32Array data (2 * i + 2) = some (toInt32 (recordLen data i)) := by
  obtain ⟨hoffset, hlen, -, -⟩ := record_eq hrecord
  rw [u32Array, u32Array, if_pos (by omega), if_pos hindex,
    show 4 * (2 * i + 1) = 8 * i + 4 by omega, show 4 * (2 * i + 2) = 8 * i + 8 by omega, hoffset, hlen]
  exact ⟨rfl, rfl⟩

theorem u32Array_record_eq_none (h : ¬ (2 * i + 2 < 2 ^ 31 ∧ 8 * i + 12 ≤ data.length)) :
    u32Array data (2 * i + 2) = none := by
  rw [u32Array]
  split
  · rw [loadUint32, if_neg (by omega)]
    rfl
  · rfl

theorem inRange_iff (hdata : data.length < 2 ^ 63) (hrecord : 8 * i + 12 ≤ data.length) :
    InRange data i ↔ ¬ toInt32 (recordOffset data i) < prevStrEnd data i ∧
      ¬ (data.length ≤ toSizeT (toInt32 (recordLen data i)) ∨
        data.length - toSizeT (toInt32 (recordLen data i)) <
          toSizeT (toInt32 (recordOffset data i))) := by
  obtain ⟨-, -, hoffset, hlen⟩ := record_eq hrecord
  constructor
  · rintro ⟨hoffset31, hlen31, hprev, hlenlt, hend⟩
    rw [toInt32_of_lt hoffset31, toInt32_of_lt hlen31, toSizeT_natCast (by omega),
      toSizeT_natCast (by omega)]
    omega
  · rintro ⟨hprev, hrange⟩
    push Not at hrange
    have hlen31 : recordLen data i < 2 ^ 31 := by
      by_contra hle
      have := toSizeT_toInt32 hlen (Nat.le_of_not_lt hle)
      omega
    have hoffset31 : recordOffset data i < 2 ^ 31 := by
      by_contra hle
      have := toSizeT_toInt32 hoffset (Nat.le_of_not_lt hle)
      omega
    rw [toInt32_of_lt hoffset31, toInt32_of_lt hlen31, toSizeT_natCast (by omega),
      toSizeT_natCast (by omega)] at hrange
    rw [toInt32_of_lt hoffset31] at hprev
    exact ⟨hoffset31, hlen31, by omega, by omega, by omega⟩

theorem verifyStrings_of_not_inside (hdata : data.length < 2 ^ 63) (h : ¬ StringInside data i) :
    verifyStrings data (count + 1) i (prevStrEnd data i) = none := by
  rw [verifyStrings]
  by_cases hrecord : 2 * i + 2 < 2 ^ 31 ∧ 8 * i + 12 ≤ data.length
  · obtain ⟨hoffset, hlen⟩ := u32Array_record hrecord.1 hrecord.2
    by_cases hrange : InRange data i
    · obtain ⟨hge, hchecks⟩ := (inRange_iff hdata hrecord.2).mp hrange
      simp only [hoffset, hlen, Option.bind_eq_bind, Option.bind_some, if_neg hge, if_neg hchecks]
      rw [toInt32_of_lt hrange.offset_lt, toInt32_of_lt hrange.len_lt]
      by_cases hend : recordOffset data i + recordLen data i < 2 ^ 31
      · rw [addInt32_eq_some.mpr ⟨by omega, rfl⟩, Option.bind_some]
        rw [show ((recordOffset data i : Int) + recordLen data i).toNat =
          recordOffset data i + recordLen data i by omega]
        by_cases hlength : recordOffset data i + recordLen data i < data.length
        · have hterm : Terminated data i ∧ ¬ recordOffset data i + recordLen data i + 1 < 2 ^ 31 := by
            by_contra hno
            exact h ⟨hrecord.1, hrecord.2, fun _ => hlength, fun _ => hend,
              fun _ ht => by_contra fun hlt => hno ⟨ht, hlt⟩⟩
          have hzero : data[recordOffset data i + recordLen data i]? = some 0 := hterm.1
          rw [hzero, Option.bind_some, if_neg (by decide), addInt32, if_neg (by omega)]
          rfl
        · rw [List.getElem?_eq_none (Nat.le_of_not_lt hlength)]
          rfl
      · rw [addInt32, if_neg (by omega)]
        rfl
    · exact absurd ⟨hrecord.1, hrecord.2, fun hr => absurd hr hrange, fun hr => absurd hr hrange,
        fun hr => absurd hr hrange⟩ h
  · rw [u32Array_record_eq_none hrecord]
    cases u32Array data (2 * i + 1) <;> rfl

theorem verifyStrings_of_not_good (hdata : data.length < 2 ^ 63) (h : StringInside data i)
    (hgood : ¬ (InRange data i ∧ Terminated data i)) :
    verifyStrings data (count + 1) i (prevStrEnd data i) = some false := by
  obtain ⟨hoffset, hlen⟩ := u32Array_record h.index_lt h.record_le
  rw [verifyStrings]
  simp only [hoffset, hlen, Option.bind_eq_bind, Option.bind_some]
  by_cases hrange : InRange data i
  · obtain ⟨hge, hchecks⟩ := (inRange_iff hdata h.record_le).mp hrange
    have hend := h.end_lt hrange
    have hnot : data[recordOffset data i + recordLen data i]? ≠ some 0 := fun ht => hgood ⟨hrange, ht⟩
    rw [if_neg hge, if_neg hchecks, toInt32_of_lt hrange.offset_lt, toInt32_of_lt hrange.len_lt,
      addInt32_eq_some.mpr ⟨by omega, rfl⟩, Option.bind_some,
      show ((recordOffset data i : Int) + recordLen data i).toNat =
        recordOffset data i + recordLen data i by omega]
    rw [List.getElem?_eq_getElem (h.end_lt_length hrange)] at hnot ⊢
    rw [Option.bind_some, if_pos fun hc => hnot (congrArg some hc)]
  · rw [inRange_iff hdata h.record_le, not_and_or, not_not, not_not] at hrange
    rcases hrange with hlt | hchecks
    · rw [if_pos hlt]
    · rw [if_pos hchecks, ite_self]

theorem verifyStrings_of_good (hdata : data.length < 2 ^ 63) (h : StringInside data i)
    (hrange : InRange data i) (hterm : Terminated data i) :
    verifyStrings data (count + 1) i (prevStrEnd data i) =
      verifyStrings data count (i + 1) (prevStrEnd data (i + 1)) := by
  obtain ⟨hoffset, hlen⟩ := u32Array_record h.index_lt h.record_le
  obtain ⟨hge, hchecks⟩ := (inRange_iff hdata h.record_le).mp hrange
  have hend := h.end_lt hrange
  have hnext := h.next_lt hrange hterm
  have hzero : data[recordOffset data i + recordLen data i]? = some 0 := hterm
  rw [verifyStrings]
  simp only [hoffset, hlen, Option.bind_eq_bind, Option.bind_some, if_neg hge, if_neg hchecks]
  rw [toInt32_of_lt hrange.offset_lt, toInt32_of_lt hrange.len_lt,
    addInt32_eq_some.mpr ⟨by omega, rfl⟩, Option.bind_some,
    show ((recordOffset data i : Int) + recordLen data i).toNat =
      recordOffset data i + recordLen data i by omega,
    hzero, Option.bind_some, if_neg (by decide), addInt32_eq_some.mpr ⟨by omega, rfl⟩]
  rfl

/-- The loop reads inside exactly if all strings lie inside that it reaches, and it accepts them only
if all are in range and terminated. -/
theorem verifyStrings_run (count : Nat) (hdata : data.length < 2 ^ 63) (hreached : Reached data i) :
    ((∃ accepted, verifyStrings data count i (prevStrEnd data i) = some accepted) ↔
        ∀ k < i + count, i ≤ k → Reached data k → StringInside data k) ∧
      (verifyStrings data count i (prevStrEnd data i) = some true → ∀ k < i + count, i ≤ k →
        StringInside data k ∧ InRange data k ∧ Terminated data k) := by
  induction count generalizing i with
  | zero => exact ⟨iff_of_true ⟨true, rfl⟩ fun k _ _ => by omega, fun _ k _ _ => by omega⟩
  | succ count ih =>
    by_cases hinside : StringInside data i
    · by_cases hgood : InRange data i ∧ Terminated data i
      · rw [verifyStrings_of_good hdata hinside hgood.1 hgood.2]
        have hreached' : Reached data (i + 1) := by
          intro j hj
          rcases Nat.lt_succ_iff_lt_or_eq.mp hj with hlt | rfl
          · exact hreached j hlt
          · exact hgood
        obtain ⟨hiff, htrue⟩ := ih hreached'
        refine ⟨hiff.trans ⟨fun h k hk hik hr => ?_, fun h k hk hik => h k (by omega) (by omega)⟩,
          fun h k hk hik => ?_⟩
        · rcases hik.eq_or_lt with rfl | hlt
          · exact hinside
          · exact h k (by omega) hlt hr
        · rcases hik.eq_or_lt with rfl | hlt
          · exact ⟨hinside, hgood⟩
          · exact htrue h k (by omega) hlt
      · rw [verifyStrings_of_not_good hdata hinside hgood]
        refine ⟨iff_of_true ⟨false, rfl⟩ fun k hk hik hr => ?_, fun h => by cases h⟩
        rcases hik.eq_or_lt with rfl | hlt
        · exact hinside
        · exact absurd (hr i hlt) hgood
    · rw [verifyStrings_of_not_inside hdata hinside]
      refine ⟨iff_of_false (fun ⟨_, h⟩ => by cases h) fun h => ?_, fun h => by cases h⟩
      exact hinside (h i (by omega) (Nat.le_refl i) hreached)

theorem offsetAt_lengthAt_eq (h : StringInside data i) :
    offsetAt data i = some (recordOffset data i) ∧ lengthAt data i = some (recordLen data i) := by
  obtain ⟨hoffset, hlen, -, -⟩ := record_eq h.record_le
  have hindex := h.index_lt
  rw [offsetAt, Nat.mod_eq_of_lt (by omega), show 4 + 4 * (i * 2) = 8 * i + 4 by omega, hoffset,
    lengthAt, Nat.mod_eq_of_lt (by omega), show 4 + 4 * (i * 2 + 1) = 8 * i + 8 by omega, hlen]
  exact ⟨rfl, rfl⟩

theorem dataAt_of_inRange (h : StringInside data i) (hrange : InRange data i) :
    dataAt data i = some ((data.drop (recordOffset data i)).take (recordLen data i)) := by
  obtain ⟨hoffset, hlen⟩ := offsetAt_lengthAt_eq h
  simp only [dataAt, hoffset, hlen, Option.bind_eq_bind, Option.bind_some]
  exact if_pos hrange.end_le

theorem readsString_of_good (h : StringInside data i) (hrange : InRange data i)
    (hterm : Terminated data i) : ReadsString data i := by
  obtain ⟨hoffset, hlen⟩ := offsetAt_lengthAt_eq h
  exact ⟨_, _, hoffset, hlen, hterm, dataAt_of_inRange h hrange⟩

theorem verifiesSafely_iff (data : View) : VerifiesSafely data.1 ↔ ChecksInside data.1 := by
  obtain ⟨data, hdata⟩ := data
  dsimp only
  by_cases hlength : data.length < 4
  · refine iff_of_true ⟨false, if_pos hlength, fun h => by cases h⟩ fun hle => ?_
    omega
  have hsize : loadUint32 data 0 = some (size data) := by
    rw [size, loadUint32, if_pos (by omega)]
    rfl
  by_cases hmin : data.length < minRequiredDataSize (size data)
  · refine iff_of_true ⟨false, ?_, fun h => by cases h⟩ fun _ hle => ?_
    · rw [verifyData, if_neg hlength, hsize]
      exact if_pos hmin
    · omega
  have hrun : verifyData data = verifyStrings data (size data) 0 (prevStrEnd data 0) := by
    rw [verifyData, if_neg hlength, hsize]
    exact if_neg hmin
  obtain ⟨hiff, htrue⟩ := verifyStrings_run (size data) hdata
    (show Reached data 0 from fun j hj => absurd hj (Nat.not_lt_zero j))
  rw [← hrun, Nat.zero_add] at hiff htrue
  constructor
  · rintro ⟨accepted, haccepted, -⟩ _ _ i hi hreached
    exact hiff.mp ⟨accepted, haccepted⟩ i hi (Nat.zero_le i) hreached
  · intro h
    obtain ⟨accepted, haccepted⟩ :=
      hiff.mpr fun k hk _ hr => h (by omega) (by omega) k hk hr
    refine ⟨accepted, haccepted, fun htrue' i hi => ?_⟩
    obtain ⟨hinside, hrange, hterm⟩ := htrue (haccepted.trans (congrArg some htrue')) i hi
      (Nat.zero_le i)
    exact readsString_of_good hinside hrange hterm

end verify

end Mozkey.Base.SerializedStringArray
