import Mozkey.Lib.UnaryCode
import Mozkey.Storage.Louds.BitVectorBasedArray

/-! What is put into a `BitVectorBasedArray` is found there, as long as no element falls between two
steps: the loop of `Build` then subtracts more than there is. -/

namespace Mozkey.Storage

open Lib

/-! The steps of an element. -/

def stepCount (base step length : Nat) : Nat := (length - base + step - 1) / step

variable {base step length room k : Nat}

theorem stepCount_of_le (hstep : 1 ≤ step) (h : length ≤ base) : stepCount base step length = 0 := by
  rw [stepCount, Nat.div_eq_zero_iff]
  omega

theorem stepCount_pos (hstep : 1 ≤ step) (h : base < length) : 1 ≤ stepCount base step length := by
  rw [stepCount, Nat.one_le_div_iff hstep]
  omega

theorem stepCount_of_lt (hstep : 1 ≤ step) (hlt : base < length) (hle : step ≤ length) :
    stepCount base step length = stepCount base step (length - step) + 1 := by
  rcases Nat.le_total base (length - step) with hmore | hlast
  · rw [stepCount, stepCount, ← Nat.add_div_right _ hstep]
    congr 1
    omega
  · rw [stepCount_of_le hstep hlast, stepCount, Nat.zero_add]
    apply Nat.div_eq_of_lt_le <;> omega

theorem stepCount_spec (hstep : 1 ≤ step) (base length : Nat) :
    IsLeast {n | ∃ k, n = base + k * step ∧ length ≤ n}
      (base + stepCount base step length * step) := by
  have hlow : length - base ≤ stepCount base step length * step := by
    have := Nat.lt_mul_of_div_lt (Nat.lt_succ_self ((length - base + step - 1) / step)) hstep
    rw [Nat.succ_mul] at this
    rw [stepCount]
    omega
  refine ⟨⟨_, rfl, by omega⟩, ?_⟩
  rintro n ⟨k, rfl, hk⟩
  refine Nat.add_le_add_left (Nat.mul_le_mul_right _ ?_) _
  rw [stepCount]
  refine Nat.le_of_lt_succ (Nat.div_lt_of_lt_mul ?_)
  rw [Nat.mul_succ, Nat.mul_comm step]
  omega

namespace BitVectorBasedArrayBuilder

theorem countSteps_eq (hstep : 1 ≤ step) (hlength : length < 2 ^ 64)
    (hroom : stepCount base step length ≤ room) (hle : stepCount base step length * step ≤ length) :
    countSteps base step room length = some (stepCount base step length) := by
  induction room generalizing length with
  | zero =>
    have hshort : ¬ length > base := fun hlt => by
      have := stepCount_pos hstep hlt
      omega
    rw [countSteps, if_neg hshort, Nat.le_zero.mp hroom]
  | succ room ih =>
    rw [countSteps]
    split
    · rename_i hlt
      have hpos := stepCount_pos hstep hlt
      have hstepLe : step ≤ length := (Nat.le_mul_of_pos_left step hpos).trans hle
      have hcount := stepCount_of_lt hstep hlt hstepLe
      have hsub : (length + 2 ^ 64 - step) % 2 ^ 64 = length - step := by omega
      rw [hcount, Nat.succ_mul] at hle
      rw [hsub, hcount, ih (by omega) (by omega) (by omega)]
      rfl
    · rename_i hge
      rw [stepCount_of_le hstep (Nat.le_of_not_gt hge)]

theorem countSteps_eq_none (hlength : length < 2 ^ 64) (hfar : base + room * step < length) :
    countSteps base step room length = none := by
  induction room generalizing length with
  | zero => exact if_pos (by omega)
  | succ room ih =>
    rw [Nat.succ_mul] at hfar
    have hsub : (length + 2 ^ 64 - step) % 2 ^ 64 = length - step := by omega
    rw [countSteps, if_pos (by omega), hsub, ih (by omega) (by omega)]
    rfl

theorem of_countSteps (hstep : 1 ≤ step) (hbase32 : base < 2 ^ 32) (hstep32 : step < 2 ^ 32)
    (hroom : room < 2 ^ 31) (hlength : length < 2 ^ 64)
    (h : countSteps base step room length = some k) :
    k = stepCount base step length ∧ k * step ≤ length ∧ k ≤ room := by
  induction room generalizing length k with
  | zero =>
    rw [countSteps] at h
    split at h
    · cases h
    · rename_i hle
      cases h
      exact ⟨(stepCount_of_le hstep (Nat.le_of_not_gt hle)).symm, by omega, le_rfl⟩
  | succ room ih =>
    rw [countSteps] at h
    split at h
    · rename_i hlt
      obtain ⟨k', hk', rfl⟩ := Option.map_eq_some_iff.mp h
      rcases Nat.lt_or_ge length step with hover | hle
      · -- the difference wraps
        have hfar : base + room * step < (length + 2 ^ 64 - step) % 2 ^ 64 := by
          have : room * step ≤ 2 ^ 31 * 2 ^ 32 := Nat.mul_le_mul (by omega) hstep32.le
          omega
        rw [countSteps_eq_none (Nat.mod_lt _ (by omega)) hfar] at hk'
        cases hk'
      · have hsub : (length + 2 ^ 64 - step) % 2 ^ 64 = length - step := by omega
        rw [hsub] at hk'
        obtain ⟨rfl, hbound, hcount⟩ := ih (by omega) (by omega) hk'
        rw [stepCount_of_lt hstep hlt hle, Nat.succ_mul]
        exact ⟨rfl, by omega, Nat.succ_le_succ hcount⟩
    · rename_i hge
      cases h
      exact ⟨(stepCount_of_le hstep (Nat.le_of_not_gt hge)).symm, by omega, Nat.zero_le _⟩

/-! The image. -/

section

variable (b : BitVectorBasedArrayBuilder)

def counts : List Nat :=
  b.elements.map fun element => stepCount b.baseLength b.stepLength element.length

/-- The least length of the base and some steps that an element fits in. -/
def paddedLength (element : Bytes) : Nat :=
  b.baseLength + stepCount b.baseLength b.stepLength element.length * b.stepLength

def padded (element : Bytes) : Bytes :=
  element ++ List.replicate (b.paddedLength element - element.length) 0

def offset (index : Nat) : Nat := ((b.elements.take index).map b.paddedLength).sum

/-- The sizes under which the loops of `Build` count what they should. -/
structure Counted (element : Bytes) : Prop where
  base_lt : b.baseLength < 2 ^ 32
  step_lt : b.stepLength < 2 ^ 32
  count_lt : stepCount b.baseLength b.stepLength element.length < 2 ^ 31
  steps_le : stepCount b.baseLength b.stepLength element.length * b.stepLength ≤ element.length

end

variable {b : BitVectorBasedArrayBuilder} {element : Bytes}

theorem length_le_paddedLength (hstep : 1 ≤ b.stepLength) (element : Bytes) :
    element.length ≤ b.paddedLength element := by
  obtain ⟨k, hk, hle⟩ := (stepCount_spec hstep b.baseLength element.length).1
  rwa [paddedLength]

@[simp] theorem length_padded (hstep : 1 ≤ b.stepLength) (element : Bytes) :
    (b.padded element).length = b.paddedLength element := by
  have := length_le_paddedLength hstep element
  rw [padded, List.length_append, List.length_replicate]
  omega

theorem buildElement_eq (hstep : 1 ≤ b.stepLength) (hlength : element.length < 2 ^ 64)
    (h : b.Counted element) (s : BitStream) (data : Bytes) :
    b.buildElement (s, data) element =
      some ((s.pushBit false).pushBits (List.replicate
        (stepCount b.baseLength b.stepLength element.length) true), data ++ b.padded element) := by
  have hcount := h.count_lt
  have hsteps : b.numSteps element = some (stepCount b.baseLength b.stepLength element.length) :=
    countSteps_eq hstep hlength (by omega) h.steps_le
  have hproduct : stepCount b.baseLength b.stepLength element.length * b.stepLength ≤
      2 ^ 31 * 2 ^ 32 := Nat.mul_le_mul hcount.le h.step_lt.le
  have hmod : (b.baseLength + stepCount b.baseLength b.stepLength element.length * b.stepLength) %
      2 ^ 64 = b.paddedLength element := by
    have := h.base_lt
    rw [paddedLength]
    exact Nat.mod_eq_of_lt (by omega)
  have houtput : b.output element (stepCount b.baseLength b.stepLength element.length) =
      some (b.padded element) := by
    rw [output, hmod, if_neg (Nat.not_lt.mpr (length_le_paddedLength hstep element))]
    rfl
  rw [buildElement, hsteps, Option.bind_eq_bind, Option.bind_some, houtput]
  rfl

open BitStream in
theorem foldlM_buildElement (hstep : 1 ≤ b.stepLength) {elements : List Bytes}
    (hlength : ∀ element ∈ elements, element.length < 2 ^ 64)
    (h : ∀ element ∈ elements, b.Counted element) {s : BitStream} {bits : List Bool}
    (hholds : Holds s bits) (data : Bytes) :
    ∃ s', elements.foldlM b.buildElement (s, data) =
        some (s', data ++ elements.flatMap b.padded) ∧
      Holds s' (bits ++ unary (elements.map fun element =>
        stepCount b.baseLength b.stepLength element.length)) := by
  induction elements generalizing s bits data with
  | nil => exact ⟨s, by simp, by simpa using hholds⟩
  | cons element elements ih =>
    rw [List.forall_mem_cons] at hlength h
    have hpushed := (hholds.pushBit false).pushBits (List.replicate
      (stepCount b.baseLength b.stepLength element.length) true)
    obtain ⟨s', hfold, hholds'⟩ := ih hlength.2 h.2 hpushed (data ++ b.padded element)
    refine ⟨s', ?_, ?_⟩
    · rw [List.foldlM_cons, buildElement_eq hstep hlength.1 h.1, Option.bind_eq_bind,
        Option.bind_some, hfold, List.flatMap_cons, List.append_assoc]
    · rw [List.map_cons, unary_cons]
      simpa using hholds'

theorem numSteps_of_foldlM {elements : List Bytes} {out out' : BitStream × Bytes}
    (h : elements.foldlM b.buildElement out = some out') :
    ∀ element ∈ elements, ∃ k, b.numSteps element = some k := by
  induction elements generalizing out with
  | nil => exact fun _ h => (List.not_mem_nil h).elim
  | cons element elements ih =>
    rw [List.foldlM_cons, Option.bind_eq_bind] at h
    obtain ⟨out₁, hout₁, hrest⟩ := Option.bind_eq_some_iff.mp h
    rw [List.forall_mem_cons]
    refine ⟨?_, ih hrest⟩
    obtain ⟨k, hk, -⟩ := Option.bind_eq_some_iff.mp hout₁
    exact ⟨k, hk⟩

/-- The bits of the elements with the zero behind them, filled up to words. -/
structure Stream (b : BitVectorBasedArrayBuilder) (stream : Bytes) : Prop where
  dvd : 4 ∣ stream.length
  length : 8 * stream.length = 32 * ((b.elements.length + b.counts.sum + 32) / 32)
  bits : ∃ rest, bitsOf stream = unary b.counts ++ false :: rest

open BitStream in
theorem stream_of_holds {s : BitStream} (h : Holds s (unary b.counts)) :
    Stream b (s.pushBit false).fillPadding32.image := by
  obtain ⟨hdvd, hle, hlt, hbits⟩ := (h.pushBit false).fillPadding32
  have hcounts : b.counts.length = b.elements.length := List.length_map _
  rw [List.length_append, length_unary, hcounts, List.length_singleton] at hle hlt
  rw [List.append_assoc] at hbits
  exact ⟨hdvd, by omega, _, hbits⟩

/-- What a reader finds in the four words of the header. -/
structure Header (b : BitVectorBasedArrayBuilder) (stream header : Bytes) : Prop where
  length : header.length = 16
  indexLength : ∀ rest, loadUint32 (header ++ rest) 0 = some stream.length
  baseLength : ∀ rest, loadUint32 (header ++ rest) 4 = some b.baseLength
  stepLength : ∀ rest, loadUint32 (header ++ rest) 8 = some b.stepLength
  padding : ∀ rest, loadUint32 (header ++ rest) 12 = some 0

/-- The words that `Build` pushes in front of the bits. -/
def pushHeader (b : BitVectorBasedArrayBuilder) (stream : Bytes) : Option Bytes := do
  let image ← pushInt32 stream.length []
  let image ← pushInt32 b.baseLength image
  let image ← pushInt32 b.stepLength image
  pushInt32 0 image

theorem pushHeader_eq {stream : Bytes} (hlength : stream.length ≤ 0xffffffff)
    (hbase : b.baseLength ≤ 0xffffffff) (hstep : b.stepLength ≤ 0xffffffff) :
    ∃ header, Header b stream header ∧ pushHeader b stream = some header := by
  obtain ⟨w₁, h₁, hpush₁, hload₁⟩ := pushInt32_eq hlength
  obtain ⟨w₂, h₂, hpush₂, hload₂⟩ := pushInt32_eq hbase
  obtain ⟨w₃, h₃, hpush₃, hload₃⟩ := pushInt32_eq hstep
  obtain ⟨w₄, h₄, hpush₄, hload₄⟩ := pushInt32_eq (Nat.zero_le 0xffffffff)
  refine ⟨[] ++ w₁ ++ w₂ ++ w₃ ++ w₄, ⟨?_, fun rest => ?_, fun rest => ?_, fun rest => ?_,
    fun rest => ?_⟩, ?_⟩
  · simp [h₁, h₂, h₃, h₄]
  · simpa using hload₁ [] (w₂ ++ (w₃ ++ (w₄ ++ rest)))
  · simpa [h₁] using hload₂ w₁ (w₃ ++ (w₄ ++ rest))
  · simpa [h₁, h₂] using hload₃ (w₁ ++ w₂) (w₄ ++ rest)
  · simpa [h₁, h₂, h₃] using hload₄ (w₁ ++ w₂ ++ w₃) rest
  · simp [pushHeader, hpush₁, hpush₂, hpush₃, hpush₄]

theorem of_pushHeader {stream header : Bytes} (h : pushHeader b stream = some header) :
    stream.length ≤ 0xffffffff ∧ b.baseLength ≤ 0xffffffff ∧ b.stepLength ≤ 0xffffffff := by
  obtain ⟨image₁, h₁, hrest₁⟩ := Option.bind_eq_some_iff.mp h
  obtain ⟨image₂, h₂, hrest₂⟩ := Option.bind_eq_some_iff.mp hrest₁
  obtain ⟨image₃, h₃, -⟩ := Option.bind_eq_some_iff.mp hrest₂
  exact ⟨le_of_pushInt32 h₁, le_of_pushInt32 h₂, le_of_pushInt32 h₃⟩

theorem build_eq_bind : b.build = (b.elements.foldlM b.buildElement ({}, [])).bind fun out =>
    (pushHeader b (out.1.pushBit false).fillPadding32.image).map fun header =>
      header ++ (out.1.pushBit false).fillPadding32.image ++ out.2 := by
  simp only [build, pushHeader, Option.bind_eq_bind, Option.map_eq_bind, Option.bind_assoc,
    Function.comp_def]

theorem build_eq (hstep : 1 ≤ b.stepLength)
    (hlength : ∀ element ∈ b.elements, element.length < 2 ^ 64)
    (h : ∀ element ∈ b.elements, b.Counted element) :
    ∃ stream, Stream b stream ∧ b.build =
      (pushHeader b stream).map fun header => header ++ stream ++ b.elements.flatMap b.padded := by
  obtain ⟨s, hfold, hholds⟩ := foldlM_buildElement hstep hlength h BitStream.holds_nil []
  refine ⟨_, stream_of_holds hholds, ?_⟩
  rw [build_eq_bind, hfold]
  rfl

end BitVectorBasedArrayBuilder

/-! The reader. -/

namespace BitVectorBasedArray

open BitVectorBasedArrayBuilder

variable {b : BitVectorBasedArrayBuilder} {stream header data : Bytes}

theorem sizeOfInt_of_lt {n : Nat} (h : n < 2 ^ 31) : sizeOfInt n = n := if_pos h

theorem sizeOfInt_of_ge {n : Nat} (h : ¬ n < 2 ^ 31) : sizeOfInt n = n + (2 ^ 64 - 2 ^ 32) := by
  rw [sizeOfInt, if_neg h]

theorem length_int {base step k : Nat} (hk : k < 2 ^ 31)
    (h : (sizeOfInt base + sizeOfInt step * k) % 2 ^ 64 = base + k * step) :
    base < 2 ^ 31 ∧ (1 ≤ k → step < 2 ^ 31) := by
  have hwrapped : ∀ c p, 1 ≤ c → c ≤ 2 ^ 31 → (p + (2 ^ 64 - 2 ^ 32) * c) % 2 ^ 64 ≠ p := by
    intro c p hpos hc h
    have hq := Nat.div_add_mod (p + (2 ^ 64 - 2 ^ 32) * c) (2 ^ 64)
    rw [h] at hq
    generalize (p + (2 ^ 64 - 2 ^ 32) * c) / 2 ^ 64 = q at hq
    have hmul : 2 ^ 32 * q + c = 2 ^ 32 * c := by omega
    omega
  generalize hnegative : 2 ^ 64 - 2 ^ 32 = negative at hwrapped
  by_cases hbase : base < 2 ^ 31 <;> by_cases hstep : step < 2 ^ 31
  · exact ⟨hbase, fun _ => hstep⟩
  · rw [sizeOfInt_of_lt hbase, sizeOfInt_of_ge hstep, hnegative] at h
    refine ⟨hbase, fun hpos => (hwrapped k (base + k * step) hpos hk.le ?_).elim⟩
    exact (congrArg (· % 2 ^ 64) (by ring)).trans h
  · rw [sizeOfInt_of_ge hbase, sizeOfInt_of_lt hstep, hnegative] at h
    refine (hwrapped 1 (base + k * step) le_rfl (by omega) ?_).elim
    exact (congrArg (· % 2 ^ 64) (by ring)).trans h
  · rw [sizeOfInt_of_ge hbase, sizeOfInt_of_ge hstep, hnegative] at h
    refine (hwrapped (k + 1) (base + k * step) (Nat.succ_pos k) hk ?_).elim
    exact (congrArg (· % 2 ^ 64) (by ring)).trans h
theorem openImage_eq (hheader : Header b stream header) :
    openImage (header ++ stream ++ data) = (do
      guard (stream.length < 2 ^ 31)
      let index ← SimpleSuccinctBitVectorIndex.init 32 stream kLb0CacheSize kLb1CacheSize
      some { index, baseLength := sizeOfInt b.baseLength, stepLength := sizeOfInt b.stepLength,
             data }) := by
  have hguard : (stream.length < 2 ^ 31 ∧ stream.length ≤ (stream ++ data).length) ↔
      stream.length < 2 ^ 31 := and_iff_left (by simp)
  have hdrop : (header ++ (stream ++ data)).drop 16 = stream ++ data :=
    List.drop_left' hheader.length
  rw [openImage, List.append_assoc, hheader.indexLength, hheader.baseLength, hheader.stepLength,
    hheader.padding, hdrop]
  simp only [Option.bind_eq_bind, Option.bind_some, hguard, List.take_left, List.drop_left]
  rfl

theorem length_of_openImage {array : BitVectorBasedArray} (hheader : Header b stream header)
    (h : openImage (header ++ stream ++ data) = some array) : 8 * stream.length < 2 ^ 31 := by
  rw [openImage_eq hheader] at h
  obtain ⟨-, -, hindex⟩ := Option.bind_eq_some_iff.mp h
  obtain ⟨s, hinit, -⟩ := Option.bind_eq_some_iff.mp hindex
  exact SimpleSuccinctBitVectorIndex.length_lt_of_init hinit

theorem exists_openImage (hstream : Stream b stream) (hheader : Header b stream header)
    (hlength : 8 * stream.length < 2 ^ 31) (data : Bytes) :
    ∃ index : SimpleSuccinctBitVectorIndex, index.Indexed ∧ index.data = stream ∧
      openImage (header ++ stream ++ data) = some
        { index, baseLength := sizeOfInt b.baseLength, stepLength := sizeOfInt b.stepLength,
          data } := by
  have hchunk : 4 ∣ 32 := by decide
  obtain ⟨index, hinit, hindexed, hdata, -⟩ := SimpleSuccinctBitVectorIndex.init_eq hchunk
    (by decide) hstream.dvd hlength kLb0CacheSize kLb1CacheSize
  refine ⟨index, hindexed, hdata, ?_⟩
  rw [openImage_eq hheader, SimpleSuccinctBitVectorIndex.guard_eq_some (by omega), hinit]
  rfl

theorem skipOnes_eq {index : SimpleSuccinctBitVectorIndex} {k fuel i : Nat} {rest : List Bool}
    (hbits : (bitsOf index.data).drop i = List.replicate k true ++ false :: rest)
    (hfuel : k < fuel) : skipOnes index fuel i = some (i + k) := by
  induction k generalizing fuel i with
  | zero =>
    obtain ⟨fuel, rfl⟩ := Nat.exists_eq_succ_of_ne_zero (by omega : fuel ≠ 0)
    have hget : index.get i = some false := by
      rw [SimpleSuccinctBitVectorIndex.get_eq, ← List.head?_drop, hbits]
      rfl
    rw [skipOnes, hget]
    rfl
  | succ k ih =>
    obtain ⟨fuel, rfl⟩ := Nat.exists_eq_succ_of_ne_zero (by omega : fuel ≠ 0)
    have hget : index.get i = some true := by
      rw [SimpleSuccinctBitVectorIndex.get_eq, ← List.head?_drop, hbits]
      rfl
    have hnext : (bitsOf index.data).drop (i + 1) = List.replicate k true ++ false :: rest := by
      rw [← List.drop_drop, hbits]
      rfl
    rw [skipOnes, hget, Option.bind_eq_bind, Option.bind_some, if_pos rfl,
      ih hnext (by omega), Nat.add_assoc, Nat.add_comm 1]

theorem get_eq {array : BitVectorBasedArray} (hindexed : array.index.Indexed)
    (hstream : Stream b array.index.data) {i k : Nat} (hk : b.counts[i]? = some k) :
    array.get i = some
      (Int.bmod ((array.baseLength * i + array.stepLength * (b.counts.take i).sum) % 2 ^ 64 : Nat)
        (2 ^ 32), (array.baseLength + array.stepLength * k) % 2 ^ 64) := by
  obtain ⟨rest, hbits⟩ := hstream.bits
  have hlt := (List.getElem?_eq_some_iff.mp hk).1
  have hselect := SimpleSuccinctBitVectorIndex.select0_eq hindexed
    (hbits ▸ selectsAt_unary hk rest)
  have hlength := congrArg List.length hbits
  rw [length_bitsOf, List.length_append, length_unary, List.length_cons] at hlength
  have hsum : (b.counts.take i).sum + k ≤ b.counts.sum := by
    have := congrArg List.sum (List.take_append_drop (i + 1) b.counts)
    rw [List.sum_append, List.take_add_one, hk, List.sum_append] at this
    simp only [Option.toList_some, List.sum_singleton] at this
    omega
  have hrank : array.index.rank1 (i + (b.counts.take i).sum) = some (b.counts.take i).sum := by
    rw [SimpleSuccinctBitVectorIndex.rank1_eq hindexed (by omega), hbits, rank_unary hlt.le]
  obtain ⟨rest', hdrop⟩ := drop_unary hk rest
  rw [← hbits] at hdrop
  have hones : (bitsOf array.index.data).drop (i + (b.counts.take i).sum + 1) =
      List.replicate k true ++ false :: rest' := by
    rw [← List.drop_drop, hdrop]
    rfl
  have hfuel : k < 8 * array.index.data.length := by omega
  have hskip := skipOnes_eq hones hfuel
  have hlast : i + (b.counts.take i).sum + 1 + k - (i + (b.counts.take i).sum) - 1 = k := by omega
  rw [get]
  simp only [hselect, hrank, hskip, hlast, Option.bind_eq_bind, Option.bind_some]

theorem view_offset {array : BitVectorBasedArray} (hstep : 1 ≤ b.stepLength)
    (hdata : array.data = b.elements.flatMap b.padded) {i : Nat} {element : Bytes}
    (helement : b.elements[i]? = some element) :
    array.view (b.offset i) (b.paddedLength element) = some (b.padded element) := by
  obtain ⟨hlt, rfl⟩ := List.getElem?_eq_some_iff.mp helement
  have hsplit : b.elements.flatMap b.padded = (b.elements.take i).flatMap b.padded ++
      (b.padded b.elements[i] ++ (b.elements.drop (i + 1)).flatMap b.padded) := by
    rw [← List.flatMap_cons, ← List.drop_eq_getElem_cons hlt, ← List.flatMap_append,
      List.take_append_drop]
  have hoffset : ((b.elements.take i).flatMap b.padded).length = b.offset i := by
    rw [List.length_flatMap, offset]
    exact congrArg List.sum (List.map_congr_left fun element _ => length_padded hstep element)
  have hpadded := length_padded hstep b.elements[i]
  rw [view, hdata, hsplit, if_pos, Int.toNat_natCast, List.drop_left' hoffset, List.take_left' hpadded]
  refine ⟨Int.natCast_nonneg _, ?_⟩
  rw [Int.toNat_natCast, List.length_append, List.length_append, hoffset, hpadded]
  omega

/-- `Build` returns, and in its image `Get` finds each element at its place in the data, with zeros
up to the least length of the base and some steps. -/
def Stores (b : BitVectorBasedArrayBuilder) : Prop :=
  ∃ image array, b.build = some image ∧ openImage image = some array ∧
    ∀ i element, b.elements[i]? = some element → ∃ n,
      IsLeast {n | ∃ k, n = b.baseLength + k * b.stepLength ∧ element.length ≤ n} n ∧
      array.get i = some ((b.offset i : Int), n) ∧
      array.view (b.offset i) n = some (element ++ List.replicate (n - element.length) 0)

/-- The sizes that `Build` and `Get` can handle: those of the header and of the `int`s, and for each
element a number of steps that its length has. -/
structure Fits (b : BitVectorBasedArrayBuilder) : Prop where
  base_lt : b.baseLength < 2 ^ 32
  step_lt : b.stepLength < 2 ^ 32
  steps_le : ∀ element ∈ b.elements,
    stepCount b.baseLength b.stepLength element.length * b.stepLength ≤ element.length
  bits_lt : 32 * ((b.elements.length + b.counts.sum + 32) / 32) < 2 ^ 31
  base_int : b.elements ≠ [] → b.baseLength < 2 ^ 31
  step_int : (∃ element ∈ b.elements, b.baseLength < element.length) → b.stepLength < 2 ^ 31
  offset_int : ∀ i < b.elements.length, b.offset i < 2 ^ 31

theorem counts_le_sum {element : Bytes} (helement : element ∈ b.elements) :
    stepCount b.baseLength b.stepLength element.length ≤ b.counts.sum :=
  List.single_le_sum (fun _ _ => Nat.zero_le _) _ (List.mem_map_of_mem helement)

theorem Fits.counted (h : Fits b) : ∀ element ∈ b.elements, b.Counted element := by
  intro element helement
  have hle := counts_le_sum helement
  have hbits := h.bits_lt
  exact ⟨h.base_lt, h.step_lt, by omega, h.steps_le element helement⟩

theorem offset_eq {i : Nat} (hi : i ≤ b.elements.length) :
    b.offset i = b.baseLength * i + b.stepLength * (b.counts.take i).sum := by
  have hsum : ∀ elements : List Bytes, (elements.map b.paddedLength).sum =
      b.baseLength * elements.length + b.stepLength * (elements.map fun element =>
        stepCount b.baseLength b.stepLength element.length).sum := by
    intro elements
    induction elements with
    | nil => rfl
    | cons element elements ih =>
      rw [List.map_cons, List.sum_cons, ih, List.length_cons, List.map_cons, List.sum_cons,
        paddedLength]
      ring
  rw [offset, hsum, List.length_take, Nat.min_eq_left hi, counts, List.map_take]

theorem getElem_counts {i : Nat} {element : Bytes} (h : b.elements[i]? = some element) :
    b.counts[i]? = some (stepCount b.baseLength b.stepLength element.length) := by
  rw [counts, List.getElem?_map, h, Option.map_some]

theorem Fits.sizeOfInt_mul (h : Fits b) (hstep : 1 ≤ b.stepLength) {counts : List Nat}
    (hcounts : counts ⊆ b.counts) :
    sizeOfInt b.stepLength * counts.sum = b.stepLength * counts.sum := by
  by_cases hsteps : ∃ element ∈ b.elements, b.baseLength < element.length
  · rw [sizeOfInt_of_lt (h.step_int hsteps)]
  · have hzero : counts.sum = 0 := by
      rw [List.sum_eq_zero_iff]
      intro k hk
      obtain ⟨element, helement, rfl⟩ := List.mem_map.mp (hcounts hk)
      exact stepCount_of_le hstep (Nat.le_of_not_lt fun hlt => hsteps ⟨element, helement, hlt⟩)
    rw [hzero, Nat.mul_zero, Nat.mul_zero]

theorem Fits.stores (hstep : 1 ≤ b.stepLength)
    (hlength : ∀ element ∈ b.elements, element.length < 2 ^ 64) (h : Fits b) : Stores b := by
  obtain ⟨stream, hstream, hbuild⟩ := build_eq hstep hlength h.counted
  have hbits := h.bits_lt
  rw [← hstream.length] at hbits
  have hsize : stream.length ≤ 0xffffffff := by omega
  obtain ⟨header, hheader, hpush⟩ :=
    pushHeader_eq hsize (Nat.le_of_lt_succ h.base_lt) (Nat.le_of_lt_succ h.step_lt)
  obtain ⟨index, hindexed, rfl, hopen⟩ := exists_openImage hstream hheader hbits
    (b.elements.flatMap b.padded)
  rw [hpush, Option.map_some] at hbuild
  refine ⟨_, _, hbuild, hopen, fun i element helement => ⟨b.paddedLength element,
    stepCount_spec hstep b.baseLength element.length, ?_, view_offset hstep rfl helement⟩⟩
  have hcount := getElem_counts helement
  obtain ⟨hlt, rfl⟩ := List.getElem?_eq_some_iff.mp helement
  have hmem := List.getElem_mem hlt
  have hoffset := h.offset_int i hlt
  have hbase := sizeOfInt_of_lt (h.base_int (List.ne_nil_of_mem hmem))
  have hbefore := h.sizeOfInt_mul hstep (List.take_subset i b.counts)
  have hown := h.sizeOfInt_mul hstep (List.cons_subset.mpr
    ⟨List.mem_of_getElem? hcount, List.nil_subset _⟩)
  rw [List.sum_singleton] at hown
  have hproduct : stepCount b.baseLength b.stepLength b.elements[i].length * b.stepLength ≤
      2 ^ 31 * 2 ^ 32 :=
    Nat.mul_le_mul (h.counted _ hmem).count_lt.le h.step_lt.le
  have hbaseLt := h.base_lt
  rw [get_eq hindexed hstream hcount]
  dsimp only
  rw [hbase, hbefore, hown, ← offset_eq hlt.le, Nat.mod_eq_of_lt (by omega), paddedLength,
    Nat.mul_comm b.stepLength, Nat.mod_eq_of_lt (by omega), Int.bmod_eq_of_le (by omega) (by omega)]

theorem Stores.fits (hstep : 1 ≤ b.stepLength)
    (hlength : ∀ element ∈ b.elements, element.length < 2 ^ 64) (h : Stores b) : Fits b := by
  obtain ⟨image, array, hbuild, hopen, hget⟩ := h
  rw [build_eq_bind] at hbuild
  obtain ⟨out, hfold, himage⟩ := Option.bind_eq_some_iff.mp hbuild
  obtain ⟨header, hpush, -⟩ := Option.map_eq_some_iff.mp himage
  obtain ⟨-, hbase32, hstep32⟩ := of_pushHeader hpush
  have hcounted : ∀ element ∈ b.elements, b.Counted element := by
    intro element helement
    obtain ⟨k, hk⟩ := numSteps_of_foldlM hfold element helement
    obtain ⟨rfl, hle, hroom⟩ := of_countSteps hstep (Nat.lt_succ_of_le hbase32)
      (Nat.lt_succ_of_le hstep32) (by omega) (hlength element helement) hk
    exact ⟨Nat.lt_succ_of_le hbase32, Nat.lt_succ_of_le hstep32, by omega, hle⟩
  rw [← build_eq_bind] at hbuild
  obtain ⟨stream, hstream, hbuild'⟩ := build_eq hstep hlength hcounted
  rw [hbuild'] at hbuild
  obtain ⟨header, hpush, rfl⟩ := Option.map_eq_some_iff.mp hbuild
  obtain ⟨hstream32, -, -⟩ := of_pushHeader hpush
  obtain ⟨header', hheader, hpush'⟩ := pushHeader_eq (b := b) hstream32 hbase32 hstep32
  rw [hpush] at hpush'
  cases hpush'
  have hbits := length_of_openImage hheader hopen
  obtain ⟨index, hindexed, rfl, hopen'⟩ := exists_openImage hstream hheader hbits
    (b.elements.flatMap b.padded)
  rw [hopen] at hopen'
  cases hopen'
  -- what `Get` computes with the words of the header is right for every element
  have hresult : ∀ i element, b.elements[i]? = some element →
      Int.bmod ((sizeOfInt b.baseLength * i +
          sizeOfInt b.stepLength * (b.counts.take i).sum) % 2 ^ 64 : Nat) (2 ^ 32) = b.offset i ∧
        (sizeOfInt b.baseLength + sizeOfInt b.stepLength *
          stepCount b.baseLength b.stepLength element.length) % 2 ^ 64 = b.paddedLength element := by
    intro i element helement
    obtain ⟨n, hn, hat, -⟩ := hget i element helement
    obtain rfl := hn.unique (stepCount_spec hstep b.baseLength element.length)
    rw [get_eq hindexed hstream (getElem_counts helement), Option.some.injEq, Prod.mk.injEq] at hat
    exact hat
  have hlengths : ∀ element ∈ b.elements, b.baseLength < 2 ^ 31 ∧
      (b.baseLength < element.length → b.stepLength < 2 ^ 31) := by
    intro element helement
    obtain ⟨i, hi⟩ := List.getElem?_of_mem helement
    obtain ⟨hbase, hsteps⟩ := length_int (hcounted element helement).count_lt
      (hresult i element hi).2
    exact ⟨hbase, fun hlt => hsteps (stepCount_pos hstep hlt)⟩
  refine ⟨Nat.lt_succ_of_le hbase32, Nat.lt_succ_of_le hstep32,
    fun element helement => (hcounted element helement).steps_le, hstream.length ▸ hbits, ?_, ?_, ?_⟩
  · intro hne
    obtain ⟨element, helement⟩ := List.exists_mem_of_ne_nil _ hne
    exact (hlengths element helement).1
  · rintro ⟨element, helement, hlt⟩
    exact (hlengths element helement).2 hlt
  · intro i hi
    have hright := (hresult i _ (List.getElem?_eq_getElem hi)).1
    have := Int.bmod_lt (m := 2 ^ 32) (x := ((sizeOfInt b.baseLength * i +
      sizeOfInt b.stepLength * (b.counts.take i).sum) % 2 ^ 64 : Nat)) (by decide)
    rw [hright] at this
    omega

/-- Exactly the builders that fit give an array that holds their elements. -/
theorem stores_iff (b : BitVectorBasedArrayBuilder) (hstep : 1 ≤ b.stepLength)
    (hlength : ∀ element ∈ b.elements, element.length < 2 ^ 64) : Stores b ↔ Fits b :=
  ⟨Stores.fits hstep hlength, Fits.stores hstep hlength⟩

theorem stores_iff_two :
    Stores { elements := [[1, 2, 3, 4, 5], []], baseLength := 4, stepLength := 2 } := by
  refine (stores_iff _ (by decide) (by decide)).mpr
    ⟨by decide, by decide, by decide, by decide, fun _ => by decide, fun _ => by decide, by decide⟩

/-- Five bytes are above a base of four, but fewer than a step of eight. -/
theorem not_stores_large_step :
    ¬ Stores { elements := [[1, 2, 3, 4, 5]], baseLength := 4, stepLength := 8 } := by
  intro h
  have hfits := h.fits (by decide) (by decide)
  exact absurd (hfits.steps_le [1, 2, 3, 4, 5] (by decide)) (by decide)

end BitVectorBasedArray

end Mozkey.Storage
