import Mozkey.Base.Container.SerializedStringArray

/-! `SerializeToBuffer` of `base/container/serialized_string_array.cc`: the image of a list of strings,
and what is read back of it. -/

namespace Mozkey.Base.SerializedStringArray

open Storage

def headerByteSize (count : Nat) : Nat := (4 * (1 + 2 * count)) % 2 ^ 32

def nextOffset (currentOffset : Int) (str : Bytes) : Int :=
  toInt32 ((toSizeT currentOffset + (str.length + 1)) % 2 ^ 32)

def offsets : (currentOffset : Int) → List Bytes → List Nat
  | _, [] => []
  | currentOffset, str :: strs =>
    (currentOffset % 2 ^ 32).toNat :: offsets (nextOffset currentOffset str) strs

/-- `make_unique<uint32_t[]>` of `(current_offset + 3) / 4` words. -/
def allocate (currentOffset : Int) : Option Bytes := do
  let rounded ← addInt32 currentOffset 3
  if rounded.tdiv 4 < 0 then none else some (List.replicate (4 * (rounded.tdiv 4).toNat) 0)

/-- The loop over the strings from the `i`-th on; nothing where it writes beyond the buffer. -/
def storeStrings : (i : Nat) → List (Nat × Bytes) → (buffer : Bytes) → Option Bytes
  | _, [], buffer => some buffer
  | i, (offset, str) :: strs, buffer => do
    let buffer ← store buffer (4 * (2 * i + 1)) (leBytes 4 offset)
    let buffer ← store buffer (4 * (2 * i + 2)) (leBytes 4 str.length)
    let buffer ← store buffer offset str
    let buffer ← store buffer (offset + str.length) [0]
    storeStrings (i + 1) strs buffer

def serializeToBuffer (strs : List Bytes) : Option Bytes := do
  let firstOffset := toInt32 (headerByteSize strs.length)
  let currentOffset := strs.foldl nextOffset firstOffset
  let buffer ← allocate currentOffset
  let buffer ← store buffer 0 (leBytes 4 strs.length)
  let buffer ← storeStrings 0 ((offsets firstOffset strs).zip strs) buffer
  some (buffer.take currentOffset.toNat)

def stringsSize (strs : List Bytes) : Nat := (strs.map fun str => str.length + 1).sum

def totalSize (strs : List Bytes) : Nat := 4 * (1 + 2 * strs.length) + stringsSize strs

/-- Strings whose image has a size of 32 bits are serialized, accepted and read back. -/
def RoundTrips (strs : List Bytes) : Prop :=
  totalSize strs < 2 ^ 32 → ∃ image, serializeToBuffer strs = some image ∧
    verifyData image = some true ∧ size image = strs.length ∧
    ∀ i < strs.length, dataAt image i = strs[i]?

/-- The records of strings that are stored from an offset on. -/
def records : (offset : Nat) → List Bytes → Bytes
  | _, [] => []
  | offset, str :: strs =>
    leBytes 4 offset ++ (leBytes 4 str.length ++ records (offset + (str.length + 1)) strs)

def terminated (strs : List Bytes) : Bytes := strs.flatMap fun str => str ++ [0]

def imageOf (strs : List Bytes) : Bytes :=
  leBytes 4 strs.length ++ (records (4 * (1 + 2 * strs.length)) strs ++ terminated strs)

def natOffsets : (offset : Nat) → List Bytes → List Nat
  | _, [] => []
  | offset, str :: strs => offset :: natOffsets (offset + (str.length + 1)) strs

section

variable {strs : List Bytes} {str : Bytes} {offset i : Nat}

@[simp] theorem stringsSize_nil : stringsSize [] = 0 := rfl

@[simp] theorem stringsSize_cons (str : Bytes) (strs : List Bytes) :
    stringsSize (str :: strs) = str.length + 1 + stringsSize strs := by
  rw [stringsSize, List.map_cons, List.sum_cons, stringsSize]

@[simp] theorem length_records (offset : Nat) (strs : List Bytes) :
    (records offset strs).length = 8 * strs.length := by
  induction strs generalizing offset with
  | nil => rfl
  | cons str strs ih =>
    rw [records, List.length_append, List.length_append, length_leBytes, length_leBytes, ih,
      List.length_cons]
    omega

theorem terminated_cons (str : Bytes) (strs : List Bytes) :
    terminated (str :: strs) = str ++ ([0] ++ terminated strs) := by
  rw [terminated, List.flatMap_cons, List.append_assoc, ← terminated]

@[simp] theorem length_terminated (strs : List Bytes) : (terminated strs).length = stringsSize strs := by
  induction strs with
  | nil => rfl
  | cons str strs ih =>
    rw [terminated_cons, List.length_append, List.length_append, List.length_singleton, ih,
      stringsSize_cons, Nat.add_assoc]

theorem length_imageOf (strs : List Bytes) : (imageOf strs).length = totalSize strs := by
  rw [imageOf, List.length_append, List.length_append, length_leBytes, length_records,
    length_terminated, totalSize]
  omega

/-! The offsets, which are kept as signed numbers. -/

theorem nextOffset_toInt32 (h : offset + (str.length + 1) < 2 ^ 32) :
    nextOffset (toInt32 offset) str = toInt32 (offset + (str.length + 1)) := by
  rw [nextOffset]
  congr 1
  unfold toSizeT toInt32
  split <;> omega

theorem foldl_nextOffset (h : offset + stringsSize strs < 2 ^ 32) :
    strs.foldl nextOffset (toInt32 offset) = toInt32 (offset + stringsSize strs) := by
  induction strs generalizing offset with
  | nil => rfl
  | cons str strs ih =>
    rw [stringsSize_cons] at h ⊢
    rw [List.foldl_cons, nextOffset_toInt32 (by omega), ih (by omega), Nat.add_assoc]

theorem offsets_toInt32 (h : offset + stringsSize strs < 2 ^ 32) :
    offsets (toInt32 offset) strs = natOffsets offset strs := by
  induction strs generalizing offset with
  | nil => rfl
  | cons str strs ih =>
    rw [stringsSize_cons] at h
    rw [offsets, natOffsets, nextOffset_toInt32 (by omega), ih (by omega)]
    congr 1
    unfold toInt32
    split <;> omega

theorem headerByteSize_of_lt (h : totalSize strs < 2 ^ 32) :
    headerByteSize strs.length = 4 * (1 + 2 * strs.length) := by
  rw [totalSize] at h
  exact Nat.mod_eq_of_lt (by omega)

theorem foldl_header (h : totalSize strs < 2 ^ 32) :
    strs.foldl nextOffset (toInt32 (headerByteSize strs.length)) = toInt32 (totalSize strs) := by
  rw [headerByteSize_of_lt h]
  exact foldl_nextOffset h

/-! The stores. -/

theorem storeStrings_eq (i offset : Nat) (xs ys zs : Bytes) (hxs : xs.length = 4 + 8 * i)
    (hoffset : offset = xs.length + 8 * strs.length + ys.length) :
    storeStrings i ((natOffsets offset strs).zip strs)
        (xs ++ (List.replicate (8 * strs.length) 0 ++
          (ys ++ (List.replicate (stringsSize strs) 0 ++ zs)))) =
      some (xs ++ (records offset strs ++ (ys ++ (terminated strs ++ zs)))) := by
  induction strs generalizing i offset xs ys with
  | nil => rfl
  | cons str strs ih =>
    rw [List.length_cons] at hoffset
    have hrecords : List.replicate (8 * (strs.length + 1)) (0 : UInt8) =
        List.replicate 4 0 ++ (List.replicate 4 0 ++ List.replicate (8 * strs.length) 0) := by
      rw [← List.replicate_add, ← List.replicate_add]
      congr 1
      omega
    have hstrings : List.replicate (stringsSize (str :: strs)) (0 : UInt8) =
        List.replicate str.length 0 ++ (List.replicate 1 0 ++ List.replicate (stringsSize strs) 0) := by
      rw [← List.replicate_add, ← List.replicate_add, stringsSize_cons]
      congr 1
      omega
    rw [natOffsets, List.zip_cons_cons, storeStrings, List.length_cons, hrecords, hstrings]
    simp only [List.append_assoc, Option.bind_eq_bind]
    -- the offset
    rw [store_append (by rw [length_leBytes, List.length_replicate]) (by omega), Option.bind_some,
      ← List.append_assoc xs]
    -- the length
    rw [store_append (by rw [length_leBytes, List.length_replicate])
      (by rw [List.length_append, length_leBytes]; omega), Option.bind_some,
      ← List.append_assoc (xs ++ leBytes 4 offset)]
    -- the string and its NUL
    have hsplit : ∀ rest : Bytes,
        xs ++ leBytes 4 offset ++ leBytes 4 str.length ++
            (List.replicate (8 * strs.length) 0 ++ (ys ++ rest)) =
          (xs ++ leBytes 4 offset ++ leBytes 4 str.length ++ List.replicate (8 * strs.length) 0 ++ ys) ++
            rest := fun rest => by simp only [List.append_assoc]
    have hlength : (xs ++ leBytes 4 offset ++ leBytes 4 str.length ++
        List.replicate (8 * strs.length) 0 ++ ys).length = offset := by
      simp only [List.length_append, length_leBytes, List.length_replicate]
      omega
    rw [hsplit, store_append List.length_replicate.symm hlength, Option.bind_some, ← List.append_assoc,
      store_append (show [0].length = (List.replicate 1 (0 : UInt8)).length from rfl) (by rw [List.length_append, hlength]),
      Option.bind_some]
    have hnext := ih (i + 1) (offset + (str.length + 1)) (xs ++ leBytes 4 offset ++ leBytes 4 str.length)
      (ys ++ (str ++ [0]))
      (by simp only [List.length_append, length_leBytes]; omega)
      (by simp only [List.length_append, length_leBytes, List.length_singleton]; omega)
    simp only [List.append_assoc] at hnext ⊢
    rw [hnext, records, terminated_cons]
    simp only [List.append_assoc]

theorem serializeToBuffer_eq (h : totalSize strs + 3 < 2 ^ 31) :
    serializeToBuffer strs = some (imageOf strs) := by
  have htotal : totalSize strs < 2 ^ 32 := by omega
  have hoffsets : offsets (toInt32 (headerByteSize strs.length)) strs =
      natOffsets (4 * (1 + 2 * strs.length)) strs := by
    rw [headerByteSize_of_lt htotal]
    exact offsets_toInt32 htotal
  rw [serializeToBuffer, foldl_header htotal, hoffsets, toInt32_of_lt (by omega), allocate,
    addInt32_eq_some.mpr ⟨by omega, rfl⟩]
  have hround : ((totalSize strs : Int) + 3).tdiv 4 = ((totalSize strs + 3) / 4 : Nat) := by
    rw [Int.tdiv_eq_ediv_of_nonneg (by omega)]
    omega
  have hbuffer : List.replicate (4 * ((totalSize strs + 3) / 4)) (0 : UInt8) =
      [] ++ (List.replicate 4 0 ++ (List.replicate (8 * strs.length) 0 ++ ([] ++
        (List.replicate (stringsSize strs) 0 ++
          List.replicate (4 * ((totalSize strs + 3) / 4) - totalSize strs) 0)))) := by
    simp only [List.nil_append, ← List.replicate_add]
    congr 1
    rw [totalSize]
    omega
  have hpositive : ¬ (((totalSize strs + 3) / 4 : Nat) : Int) < 0 := Int.not_lt.mpr (Int.natCast_nonneg _)
  simp only [Option.bind_eq_bind, Option.bind_some, hround, if_neg hpositive, Int.toNat_natCast]
  rw [hbuffer, store_append (by rw [length_leBytes, List.length_replicate]) List.length_nil, Option.bind_some,
    List.nil_append, storeStrings_eq 0 _ (leBytes 4 strs.length) [] _ (by rw [length_leBytes]) (by
      rw [length_leBytes, List.length_nil]
      omega), Option.bind_some, List.nil_append, ← List.append_assoc (records _ _), ← List.append_assoc,
    ← imageOf, ← length_imageOf, List.take_left]

theorem serializeToBuffer_eq_none (h : totalSize strs < 2 ^ 32) (hlarge : 2 ^ 31 ≤ totalSize strs + 3) :
    serializeToBuffer strs = none := by
  rw [serializeToBuffer, foldl_header h]
  by_cases hoverflow : totalSize strs < 2 ^ 31
  · rw [toInt32_of_lt hoverflow, allocate, addInt32, if_neg (by omega)]
    rfl
  · have hnegative : toInt32 (totalSize strs) = totalSize strs - 2 ^ 32 := if_neg hoverflow
    rw [hnegative, allocate, addInt32_eq_some.mpr ⟨by omega, rfl⟩]
    by_cases hwords : ((totalSize strs : Int) - 2 ^ 32 + 3).tdiv 4 < 0
    · simp only [Option.bind_eq_bind, Option.bind_some, if_pos hwords, Option.bind_none]
    · have hzero : ((totalSize strs : Int) - 2 ^ 32 + 3).tdiv 4 = 0 := by
        have hle : (totalSize strs : Int) - 2 ^ 32 + 3 ≤ 2 := by omega
        exact Int.le_antisymm (Int.tdiv_le_tdiv (by decide) hle) (Int.not_lt.mp hwords)
      simp only [Option.bind_eq_bind, Option.bind_some, hzero, Int.toNat_zero, Nat.mul_zero,
        List.replicate_zero, lt_self_iff_false, if_false]
      rw [store, if_neg (by rw [length_leBytes]; simp)]
      rfl

/-! What is read back. -/

def offsetOf (strs : List Bytes) (i : Nat) : Nat :=
  4 * (1 + 2 * strs.length) + stringsSize (strs.take i)

theorem stringsSize_append (xs ys : List Bytes) :
    stringsSize (xs ++ ys) = stringsSize xs + stringsSize ys := by
  rw [stringsSize, List.map_append, List.sum_append, stringsSize, stringsSize]

theorem offsetOf_succ (h : strs[i]? = some str) :
    offsetOf strs (i + 1) = offsetOf strs i + (str.length + 1) := by
  rw [offsetOf, List.take_add_one, h, stringsSize_append, Option.toList_some, stringsSize_cons,
    stringsSize_nil, offsetOf]
  omega

theorem offsetOf_le (h : strs[i]? = some str) :
    offsetOf strs i + (str.length + 1) ≤ totalSize strs := by
  have hsplit := stringsSize_append (strs.take (i + 1)) (strs.drop (i + 1))
  rw [List.take_append_drop] at hsplit
  rw [← offsetOf_succ h, offsetOf, totalSize]
  omega

theorem drop_imageOf (h : strs[i]? = some str) :
    ∃ rest, (imageOf strs).drop (offsetOf strs i) = str ++ ([0] ++ rest) := by
  obtain ⟨hi, rfl⟩ := List.getElem?_eq_some_iff.mp h
  refine ⟨terminated (strs.drop (i + 1)), ?_⟩
  have hsplit : terminated strs =
      terminated (strs.take i) ++ (strs[i] ++ ([0] ++ terminated (strs.drop (i + 1)))) := by
    rw [← terminated_cons, List.cons_getElem_drop_succ, terminated, terminated, terminated,
      ← List.flatMap_append, List.take_append_drop]
  rw [imageOf, hsplit, ← List.append_assoc, ← List.append_assoc]
  apply List.drop_left'
  rw [List.length_append, List.length_append, length_leBytes, length_records, length_terminated,
    offsetOf]
  omega

theorem loadUint32_records (offset : Nat) (xs zs : Bytes) (hsize : offset + stringsSize strs < 2 ^ 32)
    (h : strs[i]? = some str) :
    loadUint32 (xs ++ (records offset strs ++ zs)) (xs.length + 8 * i) =
        some (offset + stringsSize (strs.take i)) ∧
      loadUint32 (xs ++ (records offset strs ++ zs)) (xs.length + 8 * i + 4) = some str.length := by
  induction strs generalizing i offset xs with
  | nil => cases h
  | cons first strs ih =>
    rw [stringsSize_cons] at hsize
    simp only [records, List.append_assoc, loadUint32_eq_loadLe]
    cases i with
    | zero =>
      cases h
      refine ⟨loadLe_leBytes (by omega) rfl, ?_⟩
      rw [← List.append_assoc]
      exact loadLe_leBytes (by omega) (by rw [List.length_append, length_leBytes])
    | succ i =>
      obtain ⟨hoffset, hlen⟩ := ih (offset + (first.length + 1))
        (xs ++ (leBytes 4 offset ++ leBytes 4 first.length)) (by omega) h
      simp only [List.append_assoc, List.length_append, length_leBytes, loadUint32_eq_loadLe]
        at hoffset hlen
      rw [List.take_succ_cons, stringsSize_cons,
        show xs.length + 8 * (i + 1) = xs.length + (4 + 4) + 8 * i by omega]
      exact ⟨hoffset.trans (congrArg some (Nat.add_assoc _ _ _)), hlen⟩

theorem record_imageOf (hsize : totalSize strs < 2 ^ 32) (h : strs[i]? = some str) :
    recordOffset (imageOf strs) i = offsetOf strs i ∧ recordLen (imageOf strs) i = str.length := by
  obtain ⟨hoffset, hlen⟩ := loadUint32_records _ (leBytes 4 strs.length) (terminated strs) hsize h
  rw [length_leBytes] at hoffset hlen
  rw [recordOffset, recordLen, imageOf, show 8 * i + 4 = 4 + 8 * i by omega, hoffset,
    show 8 * i + 8 = 4 + 8 * i + 4 by omega, hlen]
  exact ⟨rfl, rfl⟩

theorem size_imageOf (hsize : totalSize strs < 2 ^ 32) : size (imageOf strs) = strs.length := by
  have hlength : strs.length < 2 ^ (8 * 4) := by
    rw [totalSize] at hsize
    omega
  have hload : loadLe 4 ([] ++ imageOf strs) 0 = some strs.length := loadLe_leBytes hlength rfl
  rw [size, loadUint32_eq_loadLe]
  exact congrArg (Option.getD · 0) hload

theorem getElem?_imageOf (h : strs[i]? = some str) :
    (imageOf strs)[offsetOf strs i + str.length]? = some 0 := by
  obtain ⟨rest, hdrop⟩ := drop_imageOf h
  rw [← List.getElem?_drop, hdrop, List.getElem?_append_right (Nat.le_refl _), Nat.sub_self]
  rfl

theorem good_imageOf (hsize : totalSize strs + 3 < 2 ^ 31) (hi : i < strs.length) :
    StringInside (imageOf strs) i ∧ InRange (imageOf strs) i ∧ Terminated (imageOf strs) i := by
  have hsize32 : totalSize strs < 2 ^ 32 := by omega
  have hstr : strs[i]? = some strs[i] := List.getElem?_eq_getElem hi
  obtain ⟨hoffset, hlen⟩ := record_imageOf hsize32 hstr
  have hend := offsetOf_le hstr
  have hlength := length_imageOf strs
  have hheader : 4 * (1 + 2 * strs.length) ≤ totalSize strs := Nat.le_add_right _ _
  have hprev : prevStrEnd (imageOf strs) i ≤ offsetOf strs i := by
    cases i with
    | zero =>
      rw [prevStrEnd, size_imageOf hsize32, minRequiredDataSize, Nat.mod_eq_of_lt (by omega),
        toInt32_of_lt (by omega), offsetOf]
      omega
    | succ i =>
      have hbefore : strs[i]? = some strs[i] := List.getElem?_eq_getElem (Nat.lt_of_succ_lt hi)
      obtain ⟨hoffset', hlen'⟩ := record_imageOf hsize32 hbefore
      rw [prevStrEnd, hoffset', hlen', offsetOf_succ hbefore]
      omega
  have hterm : Terminated (imageOf strs) i := by
    rw [Terminated, hoffset, hlen]
    exact getElem?_imageOf hstr
  refine ⟨⟨by omega, by omega, fun _ => ?_, fun _ => ?_, fun _ _ => ?_⟩,
    ⟨by omega, by omega, ?_, by omega, by omega⟩, hterm⟩
  all_goals omega

theorem verifyStrings_of_all_good {data : Bytes} (count i : Nat) (hdata : data.length < 2 ^ 63)
    (h : ∀ k < i + count, i ≤ k → StringInside data k ∧ InRange data k ∧ Terminated data k) :
    verifyStrings data count i (prevStrEnd data i) = some true := by
  induction count generalizing i with
  | zero => rfl
  | succ count ih =>
    obtain ⟨hinside, hrange, hterm⟩ := h i (by omega) (Nat.le_refl i)
    rw [verifyStrings_of_good hdata hinside hrange hterm]
    exact ih (i + 1) fun k hk hik => h k (by omega) (by omega)

theorem verifyData_imageOf (hsize : totalSize strs + 3 < 2 ^ 31) :
    verifyData (imageOf strs) = some true := by
  have hlength := length_imageOf strs
  have hheader : 4 * (1 + 2 * strs.length) ≤ totalSize strs := Nat.le_add_right _ _
  have hcount : size (imageOf strs) = strs.length := size_imageOf (by omega)
  have hload : loadUint32 (imageOf strs) 0 = some strs.length := by
    rw [size, loadUint32, if_pos (by omega)] at hcount
    rw [loadUint32, if_pos (by omega)]
    exact congrArg some hcount
  have hrun := verifyStrings_of_all_good strs.length 0
    (show (imageOf strs).length < 2 ^ 63 by omega)
    fun k hk _ => good_imageOf hsize (by omega)
  rw [prevStrEnd, hcount] at hrun
  rw [verifyData, if_neg (by omega), hload]
  refine (if_neg ?_).trans hrun
  rw [minRequiredDataSize, Nat.mod_eq_of_lt (by omega)]
  omega

theorem dataAt_imageOf (hsize : totalSize strs + 3 < 2 ^ 31) (h : strs[i]? = some str) :
    dataAt (imageOf strs) i = some str := by
  obtain ⟨hi, -⟩ := List.getElem?_eq_some_iff.mp h
  obtain ⟨hinside, hrange, -⟩ := good_imageOf hsize hi
  obtain ⟨hoffset, hlen⟩ := record_imageOf (show totalSize strs < 2 ^ 32 by omega) h
  obtain ⟨rest, hdrop⟩ := drop_imageOf h
  rw [dataAt_of_inRange hinside hrange, hoffset, hlen, hdrop, List.take_left]

theorem roundTrips_iff (strs : List Bytes) :
    RoundTrips strs ↔ (totalSize strs < 2 ^ 32 → totalSize strs + 3 < 2 ^ 31) := by
  constructor
  · intro h hsize
    by_contra hlarge
    obtain ⟨image, himage, -⟩ := h hsize
    rw [serializeToBuffer_eq_none hsize (Nat.le_of_not_lt hlarge)] at himage
    cases himage
  · intro h hsize
    refine ⟨imageOf strs, serializeToBuffer_eq (h hsize), verifyData_imageOf (h hsize),
      size_imageOf hsize, fun i hi => ?_⟩
    rw [List.getElem?_eq_getElem hi]
    exact dataAt_imageOf (h hsize) (List.getElem?_eq_getElem hi)

end

/-- The check of data reads inside of it exactly if all strings that it reaches lie inside, and a list
of strings makes the round trip exactly if its image is not too large for signed offsets. -/
theorem verifies_and_roundTrips_iff (data : View) (strs : List Bytes) :
    (VerifiesSafely data.1 ↔ ChecksInside data.1) ∧
      (RoundTrips strs ↔ (totalSize strs < 2 ^ 32 → totalSize strs + 3 < 2 ^ 31)) :=
  ⟨verifiesSafely_iff data, roundTrips_iff strs⟩

/-- A string that ends with the data, and more strings than the size has bits for. -/
theorem not_verifiesSafely :
    ¬ VerifiesSafely [1, 0, 0, 0, 12, 0, 0, 0, 0, 0, 0, 0] ∧ ¬ VerifiesSafely [0, 0, 0, 0x20] := by
  refine ⟨fun ⟨accepted, h, _⟩ => ?_, fun ⟨accepted, h, _⟩ => ?_⟩
  · have hnone : verifyData [1, 0, 0, 0, 12, 0, 0, 0, 0, 0, 0, 0] = none := by decide +kernel
    rw [hnone] at h
    cases h
  · have hnone : verifyData [0, 0, 0, 0x20] = none := by decide +kernel
    rw [hnone] at h
    cases h

end Mozkey.Base.SerializedStringArray
