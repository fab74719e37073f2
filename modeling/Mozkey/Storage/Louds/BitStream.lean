import Mathlib

/-! `BitStream` of `storage/louds/bit_stream.cc`, and the bits that a reader finds in its image. -/

namespace Mozkey.Storage

abbrev Bytes := List UInt8

structure BitStream where
  image : Bytes := []
  numBits : Nat := 0
  deriving DecidableEq

namespace BitStream

def pushBit (s : BitStream) (bit : Bool) : BitStream :=
  let shift := s.numBits % 8
  let image := if shift = 0 then s.image ++ [0] else s.image
  { image := image.dropLast ++ [image.getLastD 0 ||| UInt8.ofNat (bit.toNat <<< shift)]
    numBits := s.numBits + 1 }

def pushBits (s : BitStream) (bits : List Bool) : BitStream := bits.foldl pushBit s

def fillPadding32 (s : BitStream) : BitStream :=
  let remaining := s.image.length % 4
  let image := if remaining = 0 then s.image else s.image ++ List.replicate (4 - remaining) 0
  { image := image, numBits := image.length * 8 }

end BitStream

def pushInt32 (value : Nat) (image : Bytes) : Option Bytes :=
  if value ≤ 0xffffffff then
    some (image ++ [UInt8.ofNat (value &&& 0xff), UInt8.ofNat ((value >>> 8) &&& 0xff),
      UInt8.ofNat ((value >>> 16) &&& 0xff), UInt8.ofNat ((value >>> 24) &&& 0xff)])
  else none

def leValue : Bytes → Nat
  | [] => 0
  | b :: bytes => b.toNat + 2 ^ 8 * leValue bytes

/-- `LoadUnaligned<uint32_t>` at an offset of the data. -/
def loadUint32 (data : Bytes) (offset : Nat) : Option Nat :=
  if offset + 4 ≤ data.length then some (leValue ((data.drop offset).take 4)) else none

/-- The lowest `n` bits of a number, least significant first. -/
def lowBits (n value : Nat) : List Bool := (List.range n).map value.testBit

/-- The bits of an image, those of each byte from the least significant one. -/
def bitsOf (image : Bytes) : List Bool := image.flatMap fun b => lowBits 8 b.toNat

section

variable {image : Bytes} {value m n : Nat}

@[simp] theorem length_lowBits (n value : Nat) : (lowBits n value).length = n := by simp [lowBits]

theorem getElem_lowBits {i : Nat} (h : i < n) : (lowBits n value)[i]? = some (value.testBit i) := by
  simp [lowBits, h]

theorem lowBits_add (m n value : Nat) :
    lowBits (m + n) value = lowBits m value ++ lowBits n (value >>> m) := by
  simp only [lowBits, List.range_add, List.map_append, List.map_map]
  congr 1
  refine List.map_congr_left fun i _ => ?_
  simp [Nat.testBit_shiftRight]

@[simp] theorem length_bitsOf (image : Bytes) : (bitsOf image).length = 8 * image.length := by
  induction image with
  | nil => rfl
  | cons b image ih =>
    rw [bitsOf, List.flatMap_cons, List.length_append, length_lowBits, ← bitsOf, ih,
      List.length_cons]
    omega

theorem bitsOf_append (xs ys : Bytes) : bitsOf (xs ++ ys) = bitsOf xs ++ bitsOf ys :=
  List.flatMap_append

theorem bitsOf_cons (b : UInt8) (image : Bytes) :
    bitsOf (b :: image) = lowBits 8 b.toNat ++ bitsOf image := List.flatMap_cons

theorem bitsOf_singleton (b : UInt8) : bitsOf [b] = lowBits 8 b.toNat := by
  rw [bitsOf, List.flatMap_singleton]

theorem bitsOf_replicate_zero (n : Nat) :
    bitsOf (List.replicate n 0) = List.replicate (8 * n) false := by
  induction n with
  | zero => rfl
  | succ n ih =>
    rw [List.replicate_succ, bitsOf_cons, ih, Nat.mul_succ, Nat.add_comm, List.replicate_add]
    rfl

theorem drop_bitsOf (image : Bytes) (n : Nat) : (bitsOf image).drop (8 * n) = bitsOf (image.drop n) := by
  induction image generalizing n with
  | nil => simp [bitsOf]
  | cons b image ih =>
    cases n with
    | zero => rfl
    | succ n =>
      rw [bitsOf_cons, Nat.mul_succ, Nat.add_comm, ← List.drop_drop, List.drop_succ_cons, ← ih]
      simp

theorem take_bitsOf (image : Bytes) (n : Nat) : (bitsOf image).take (8 * n) = bitsOf (image.take n) := by
  induction image generalizing n with
  | nil => simp [bitsOf]
  | cons b image ih =>
    cases n with
    | zero => rfl
    | succ n =>
      rw [bitsOf_cons, Nat.mul_succ, Nat.add_comm, List.take_add, List.take_succ_cons, bitsOf_cons,
        ← ih]
      simp

theorem lowBits_leValue (bytes : Bytes) : lowBits (8 * bytes.length) (leValue bytes) = bitsOf bytes := by
  induction bytes with
  | nil => rfl
  | cons b bytes ih =>
    have hb : b.toNat < 2 ^ 8 := b.toNat_lt
    rw [List.length_cons, Nat.mul_succ, Nat.add_comm, lowBits_add, bitsOf_cons, ← ih, leValue]
    congr 1
    · refine List.map_congr_left fun i hi => ?_
      rw [Nat.add_comm, Nat.testBit_two_pow_mul_add _ hb, if_pos (List.mem_range.mp hi)]
    · rw [Nat.shiftRight_eq_div_pow, Nat.add_mul_div_left _ _ (by decide),
        Nat.div_eq_of_lt hb, Nat.zero_add]

theorem leValue_lt (bytes : Bytes) : leValue bytes < 2 ^ (8 * bytes.length) := by
  induction bytes with
  | nil => decide
  | cons b bytes ih =>
    have hb : b.toNat < 2 ^ 8 := b.toNat_lt
    rw [leValue, List.length_cons, Nat.mul_succ, Nat.pow_add]
    omega

theorem loadUint32_eq {offset : Nat} (h : offset + 4 ≤ image.length) :
    ∃ word, loadUint32 image offset = some word ∧ word < 2 ^ 32 ∧
      lowBits 32 word = ((bitsOf image).drop (8 * offset)).take 32 := by
  have hlen : ((image.drop offset).take 4).length = 4 := by
    rw [List.length_take, List.length_drop]
    omega
  refine ⟨_, if_pos h, ?_, ?_⟩
  · have := leValue_lt ((image.drop offset).take 4)
    rwa [hlen] at this
  · have := lowBits_leValue ((image.drop offset).take 4)
    rw [hlen] at this
    rw [drop_bitsOf, show 32 = 8 * 4 from rfl, take_bitsOf]
    exact this

theorem le_of_pushInt32 {pushed : Bytes} (h : pushInt32 value image = some pushed) :
    value ≤ 0xffffffff := by
  by_contra hlt
  rw [pushInt32, if_neg hlt] at h
  cases h

theorem pushInt32_eq (h : value ≤ 0xffffffff) : ∃ word : Bytes, word.length = 4 ∧
    (∀ image, pushInt32 value image = some (image ++ word)) ∧
    ∀ before rest : Bytes, loadUint32 (before ++ (word ++ rest)) before.length = some value := by
  refine ⟨_, rfl, fun image => if_pos h, fun before rest => ?_⟩
  rw [loadUint32, if_pos (by simp), List.drop_left]
  simp only [List.cons_append, List.take_succ_cons, List.take_zero, leValue, Option.some_inj]
  have hand : ∀ n, n &&& 0xff = n % 2 ^ 8 := fun n => Nat.and_two_pow_sub_one_eq_mod n 8
  simp only [hand, UInt8.toNat_ofNat', Nat.shiftRight_eq_div_pow]
  omega

end

namespace BitStream

/-- A stream whose image holds the pushed bits and a padding of zeros. -/
structure Holds (s : BitStream) (bits : List Bool) : Prop where
  numBits : s.numBits = bits.length
  image : bitsOf s.image = bits ++ List.replicate (8 * s.image.length - bits.length) false
  lt : 8 * s.image.length < bits.length + 8

variable {s : BitStream} {bits : List Bool}

theorem holds_nil : Holds {} [] := ⟨rfl, rfl, by decide⟩

theorem lowBits_or (b : UInt8) (bit : Bool) {shift : Nat} (hshift : shift < 8)
    (hfree : (lowBits 8 b.toNat).drop shift = List.replicate (8 - shift) false) :
    lowBits 8 (b ||| UInt8.ofNat (bit.toNat <<< shift)).toNat =
      (lowBits 8 b.toNat).take shift ++ bit :: List.replicate (7 - shift) false := by
  have hzero : ∀ i, shift ≤ i → i < 8 → b.toNat.testBit i = false := by
    intro i hi hlt
    have := congrArg (fun xs => xs[i - shift]?) hfree
    simp only [List.getElem?_drop, Nat.add_sub_cancel' hi, getElem_lowBits hlt] at this
    rw [List.getElem?_replicate, if_pos (by omega)] at this
    exact Option.some.inj this
  have hbit : ∀ i, i < 8 → (b ||| UInt8.ofNat (bit.toNat <<< shift)).toNat.testBit i =
      (b.toNat.testBit i || (decide (shift ≤ i) && bit.toNat.testBit (i - shift))) := by
    intro i hi
    rw [UInt8.toNat_or, UInt8.toNat_ofNat', Nat.testBit_or, Nat.testBit_mod_two_pow,
      Nat.testBit_shiftLeft, decide_eq_true hi, Bool.true_and]
  have hsingle : ∀ i, bit.toNat.testBit i = (decide (i = 0) && bit) := by
    intro i
    cases bit with
    | false => simp
    | true =>
      cases i with
      | zero => rfl
      | succ i => simp [Nat.testBit_succ]
  refine List.ext_getElem? fun i => ?_
  rcases Nat.lt_or_ge i 8 with hi | hi
  · rw [getElem_lowBits hi, hbit i hi, hsingle]
    rcases Nat.lt_trichotomy i shift with hlt | rfl | hgt
    · rw [List.getElem?_append_left (by simp; omega), List.getElem?_take, if_pos hlt,
        getElem_lowBits hi, decide_eq_false (by omega), Bool.false_and, Bool.or_false]
    · rw [List.getElem?_append_right (by rw [List.length_take]; exact Nat.min_le_left _ _),
        hzero i (le_refl _) hi]
      simp [Nat.min_eq_left hi.le]
    · rw [List.getElem?_append_right (by simp; omega), hzero i hgt.le hi, List.length_take,
        length_lowBits, Nat.min_eq_left hshift.le, show i - shift = (i - shift - 1) + 1 by omega,
        List.getElem?_cons_succ, List.getElem?_replicate, if_pos (by omega)]
      simp
  · rw [List.getElem?_eq_none (by simpa using hi), List.getElem?_eq_none (by simp; omega)]

theorem Holds.pushBit (h : Holds s bits) (bit : Bool) : Holds (s.pushBit bit) (bits ++ [bit]) := by
  obtain ⟨hnum, himage, hlt⟩ := h
  have hlen := congrArg List.length himage
  rw [length_bitsOf, List.length_append, List.length_replicate] at hlen
  -- the last byte has the bit's place, be it new or not
  obtain ⟨front, last, himg, hbits, hfront⟩ : ∃ front last,
      (if s.numBits % 8 = 0 then s.image ++ [0] else s.image) = front ++ [last] ∧
      bitsOf (front ++ [last]) =
        bits ++ List.replicate (8 - s.numBits % 8) false ∧
      8 * front.length + s.numBits % 8 = bits.length := by
    by_cases hz : s.numBits % 8 = 0
    · refine ⟨s.image, 0, if_pos hz, ?_, by omega⟩
      rw [bitsOf_append, himage, show 8 * s.image.length - bits.length = 0 by omega, hz]
      simp [bitsOf, lowBits]
      rfl
    · have hne : s.image ≠ [] := by
        intro hnil
        rw [hnil, List.length_nil] at hlen
        omega
      refine ⟨s.image.dropLast, s.image.getLast hne, ?_, ?_, ?_⟩
      · rw [if_neg hz, List.dropLast_append_getLast]
      · rw [List.dropLast_append_getLast, himage]
        congr 2
        omega
      · rw [List.length_dropLast]
        omega
  have hshift : s.numBits % 8 < 8 := Nat.mod_lt _ (by decide)
  have hpush : s.pushBit bit = { image := front ++ [last ||| UInt8.ofNat
      (bit.toNat <<< (s.numBits % 8))], numBits := s.numBits + 1 } := by
    unfold BitStream.pushBit
    dsimp only
    rw [himg, List.dropLast_concat, List.getLastD_concat]
  -- the bits before the last byte, and its bits up to the place
  have hsplit : bitsOf front = bits.take (8 * front.length) ∧
      lowBits 8 last.toNat = bits.drop (8 * front.length) ++
        List.replicate (8 - s.numBits % 8) false := by
    rw [bitsOf_append, bitsOf_singleton] at hbits
    have htake := congrArg (List.take (8 * front.length)) hbits
    have hdrop := congrArg (List.drop (8 * front.length)) hbits
    rw [List.take_left' (length_bitsOf front), List.take_append_of_le_length (by omega)] at htake
    rw [List.drop_left' (length_bitsOf front), List.drop_append_of_le_length (by omega)] at hdrop
    exact ⟨htake, hdrop⟩
  have hplace : (bits.drop (8 * front.length)).length = s.numBits % 8 := by
    rw [List.length_drop]
    omega
  have hor := lowBits_or last bit hshift (by
    rw [hsplit.2, List.drop_left' hplace])
  rw [hsplit.2, List.take_left' hplace] at hor
  rw [hpush]
  refine ⟨by simp [hnum], ?_, by simp; omega⟩
  rw [bitsOf_append, bitsOf_singleton, hor, hsplit.1, ← List.append_assoc, List.take_append_drop,
    List.append_assoc, List.singleton_append]
  congr 2
  simp
  omega

theorem Holds.pushBits (h : Holds s bits) (more : List Bool) :
    Holds (s.pushBits more) (bits ++ more) := by
  induction more generalizing s bits with
  | nil => rwa [List.append_nil]
  | cons bit more ih =>
    rw [List.append_cons]
    exact ih (h.pushBit bit)

theorem Holds.fillPadding32 (h : Holds s bits) :
    4 ∣ s.fillPadding32.image.length ∧ bits.length ≤ 8 * s.fillPadding32.image.length ∧
    8 * s.fillPadding32.image.length < bits.length + 32 ∧ bitsOf s.fillPadding32.image =
      bits ++ List.replicate (8 * s.fillPadding32.image.length - bits.length) false := by
  obtain ⟨-, himage, hlt⟩ := h
  have hlen := congrArg List.length himage
  rw [length_bitsOf, List.length_append, List.length_replicate] at hlen
  have hpad : ∃ k, s.fillPadding32.image = s.image ++ List.replicate k 0 ∧
      4 ∣ s.image.length + k ∧ k < 4 := by
    unfold BitStream.fillPadding32
    dsimp only
    split
    · next hz => exact ⟨0, by simp, by omega, by decide⟩
    · next hz => exact ⟨_, rfl, by omega, by omega⟩
  obtain ⟨k, hk, hdvd, hlt4⟩ := hpad
  have hlength : s.fillPadding32.image.length = s.image.length + k := by
    rw [hk, List.length_append, List.length_replicate]
  refine ⟨by rwa [hlength], by omega, by omega, ?_⟩
  rw [hlength, hk, bitsOf_append, himage, bitsOf_replicate_zero, List.append_assoc,
    List.replicate_append_replicate]
  congr 2
  omega

end BitStream

end Mozkey.Storage
