import Mathlib
import Mozkey.Storage.Louds.BitStream

/-! `Util::SplitFirstChar32` of `base/util.cc`, and what it does to valid UTF-8. -/

namespace Mozkey.Base

open Storage

theorem forall_byte {p : UInt8 → Prop} (h : ∀ n < 256, p (UInt8.ofNat n)) (b : UInt8) : p b := by
  have hb := h b.toNat b.toNat_lt
  rwa [UInt8.ofNat_toNat] at hb

def isUtf8TrailingByte (c : UInt8) : Bool := c &&& 0xc0 == 0x80

/-- What a leading byte tells: how many bytes there are, the least and the greatest value that many
bytes may encode, and its own bits of the value. -/
def leadingByte (b : UInt8) : Option (Nat × Nat × Nat × Nat) :=
  if b &&& 0xe0 = 0xc0 then some (2, 0x0080, 0x07ff, (b &&& 0x1f).toNat)
  else if b &&& 0xf0 = 0xe0 then some (3, 0x0800, 0xffff, (b &&& 0x0f).toNat)
  else if b &&& 0xf8 = 0xf0 then some (4, 0x010000, 0x1fffff, (b &&& 0x07).toNat)
  else if b &&& 0xfc = 0xf8 then some (5, 0x0200000, 0x3ffffff, (b &&& 0x03).toNat)
  else if b &&& 0xfe = 0xfc then some (6, 0x4000000, 0x7fffffff, (b &&& 0x01).toNat)
  else none

def addTrailingBytes : Nat → Bytes → Option Nat
  | result, [] => some result
  | result, c :: cs =>
    if isUtf8TrailingByte c then addTrailingBytes ((result <<< 6) + (c &&& 0x3f).toNat) cs
    else none

/-- The first character and the rest; without result the function returns false and leaves
the character zero and the rest empty. -/
def splitFirstChar32 (s : Bytes) : Option (Nat × Bytes) :=
  match s with
  | [] => none
  | b :: bs =>
    if b < 0x80 then some (b.toNat, bs)
    else if isUtf8TrailingByte b then none
    else do
      let (len, minValue, maxValue, result) ← leadingByte b
      if s.length < len then none
      else do
        let result ← addTrailingBytes result (bs.take (len - 1))
        if result < minValue ∨ maxValue < result then none
        else some (result, s.drop len)

/-- The most bytes that a leading byte stands for. -/
def maxCharLen : Nat := 6

theorem leadingByte_len {b : UInt8} {len minValue maxValue result : Nat}
    (h : leadingByte b = some (len, minValue, maxValue, result)) : 0 < len ∧ len ≤ maxCharLen := by
  rw [leadingByte] at h
  repeat' split at h
  all_goals cases h
  all_goals decide

theorem splitFirstChar32_cases {b : UInt8} {bs rest : Bytes} {c : Nat}
    (h : splitFirstChar32 (b :: bs) = some (c, rest)) :
    (b < 0x80 ∧ c = b.toNat ∧ rest = bs) ∨
      ∃ len minValue maxValue result, leadingByte b = some (len, minValue, maxValue, result) ∧
        len ≤ (b :: bs).length ∧ rest = (b :: bs).drop len ∧ minValue ≤ c ∧ c ≤ maxValue ∧
        ¬ b < 0x80 ∧ isUtf8TrailingByte b = false ∧
        addTrailingBytes result (bs.take (len - 1)) = some c := by
  rw [splitFirstChar32] at h
  split at h
  · rename_i hascii
    cases h
    exact .inl ⟨hascii, rfl, rfl⟩
  rename_i hascii
  split at h
  · cases h
  rename_i htrailing
  cases hleading : leadingByte b with
  | none => rw [hleading] at h; cases h
  | some r =>
    obtain ⟨len, minValue, maxValue, result⟩ := r
    rw [hleading] at h
    simp only [Option.bind_eq_bind, Option.bind_some] at h
    split at h
    · cases h
    rename_i hshort
    cases hvalue : addTrailingBytes result (bs.take (len - 1)) with
    | none => rw [hvalue] at h; cases h
    | some value =>
      rw [hvalue] at h
      simp only [Option.bind_some] at h
      split at h
      · cases h
      · cases h
        exact .inr ⟨len, minValue, maxValue, result, rfl, by omega, rfl, by omega, by omega, hascii,
          Bool.not_eq_true _ ▸ htrailing, hvalue⟩

theorem length_lt_of_splitFirstChar32 {s rest : Bytes} {c : Nat}
    (h : splitFirstChar32 s = some (c, rest)) : rest.length < s.length := by
  cases s with
  | nil => cases h
  | cons b bs =>
    rcases splitFirstChar32_cases h with
      ⟨-, -, rfl⟩ | ⟨len, minValue, maxValue, result, hleading, -, rfl, -⟩
    · exact Nat.lt_succ_self _
    · have hpos := (leadingByte_len hleading).1
      rw [List.length_drop, List.length_cons]
      omega

/-- Every round takes a byte or more, so that the length of the text is fuel enough. -/
def isValidUtf8Loop : Nat → Bytes → Bool
  | _, [] => true
  | 0, _ :: _ => false
  | fuel + 1, b :: bs =>
    match splitFirstChar32 (b :: bs) with
    | some (_, rest) => isValidUtf8Loop fuel rest
    | none => false

def isValidUtf8 (s : Bytes) : Bool := isValidUtf8Loop s.length s

def utf8 (cs : List Char) : Bytes := cs.flatMap String.utf8EncodeChar

theorem utf8_cons (c : Char) (cs : List Char) : utf8 (c :: cs) = String.utf8EncodeChar c ++ utf8 cs :=
  List.flatMap_cons

theorem utf8_append (cs ds : List Char) : utf8 (cs ++ ds) = utf8 cs ++ utf8 ds :=
  List.flatMap_append

theorem trailingByte_spec : ∀ x < 64, isUtf8TrailingByte (UInt8.ofNat (x + 0x80)) = true ∧
    (UInt8.ofNat (x + 0x80) &&& 0x3f).toNat = x := by decide

theorem leadingByte_two : ∀ x < 32, ¬ UInt8.ofNat (x + 0xc0) < 0x80 ∧
    isUtf8TrailingByte (UInt8.ofNat (x + 0xc0)) = false ∧
    leadingByte (UInt8.ofNat (x + 0xc0)) = some (2, 0x0080, 0x07ff, x) := by decide

theorem leadingByte_three : ∀ x < 16, ¬ UInt8.ofNat (x + 0xe0) < 0x80 ∧
    isUtf8TrailingByte (UInt8.ofNat (x + 0xe0)) = false ∧
    leadingByte (UInt8.ofNat (x + 0xe0)) = some (3, 0x0800, 0xffff, x) := by decide

theorem leadingByte_four : ∀ x < 8, ¬ UInt8.ofNat (x + 0xf0) < 0x80 ∧
    isUtf8TrailingByte (UInt8.ofNat (x + 0xf0)) = false ∧
    leadingByte (UInt8.ofNat (x + 0xf0)) = some (4, 0x010000, 0x1fffff, x) := by decide

theorem addTrailingBytes_cons {x : Nat} (hx : x < 64) (result : Nat) (cs : Bytes) :
    addTrailingBytes result (UInt8.ofNat (x + 0x80) :: cs) =
      addTrailingBytes (result * 64 + x) cs := by
  obtain ⟨htrailing, hvalue⟩ := trailingByte_spec x hx
  rw [addTrailingBytes, if_pos htrailing, hvalue, Nat.shiftLeft_eq]

theorem splitFirstChar32_cons {b : UInt8} {bs rest : Bytes} {len minValue maxValue result value : Nat}
    (hascii : ¬ b < 0x80) (htrailing : isUtf8TrailingByte b = false)
    (hleading : leadingByte b = some (len, minValue, maxValue, result)) (hlen : bs.length + 1 = len)
    (hvalue : addTrailingBytes result bs = some value) (hmin : minValue ≤ value)
    (hmax : value ≤ maxValue) : splitFirstChar32 (b :: bs ++ rest) = some (value, rest) := by
  have hshort : ¬ (b :: (bs ++ rest)).length < len := by
    rw [List.length_cons, List.length_append]
    omega
  have htake : (bs ++ rest).take (len - 1) = bs := by
    rw [← hlen, Nat.add_sub_cancel, List.take_left]
  have hdrop : (b :: (bs ++ rest)).drop len = rest := by
    rw [← hlen, List.drop_succ_cons, List.drop_left]
  rw [List.cons_append, splitFirstChar32]
  simp only [if_neg hascii, htrailing, Bool.false_eq_true, if_false, hleading, Option.bind_eq_bind,
    Option.bind_some, if_neg hshort, htake, hvalue, hdrop]
  rw [if_neg (by omega)]

theorem splitFirstChar32_utf8 (c : Char) (rest : Bytes) :
    splitFirstChar32 (String.utf8EncodeChar c ++ rest) = some (c.toNat, rest) := by
  have hmax : c.val.toNat < 0x110000 := by
    rcases c.valid with h | ⟨-, h⟩
    · exact Nat.lt_trans h (by decide)
    · exact h
  have hmod : ∀ n, n % 0x40 < 64 := fun n => Nat.mod_lt n (by decide)
  rw [String.utf8EncodeChar]
  show splitFirstChar32 ((if c.val.toNat ≤ 0x7f then _ else _) ++ rest) = some (c.val.toNat, rest)
  generalize c.val.toNat = v at hmax
  split
  · rename_i hv
    have hb : (UInt8.ofNat v).toNat = v := by
      rw [UInt8.toNat_ofNat']
      omega
    have hlt : UInt8.ofNat v < 0x80 := by
      rw [UInt8.lt_iff_toNat_lt, hb]
      exact Nat.lt_succ_of_le hv
    rw [List.singleton_append, splitFirstChar32, if_pos hlt, hb]
  split
  · obtain ⟨hascii, htrailing, hleading⟩ := leadingByte_two (v / 64 % 0x20) (by omega)
    refine splitFirstChar32_cons hascii htrailing hleading rfl
      (addTrailingBytes_cons (hmod v) _ _) ?_ ?_ |>.trans ?_
    · omega
    · omega
    · congr 2
      omega
  split
  · obtain ⟨hascii, htrailing, hleading⟩ := leadingByte_three (v / 4096 % 0x10) (by omega)
    refine splitFirstChar32_cons hascii htrailing hleading rfl
      ((addTrailingBytes_cons (hmod (v / 64)) _ _).trans (addTrailingBytes_cons (hmod v) _ _))
      ?_ ?_ |>.trans ?_
    · omega
    · omega
    · congr 2
      omega
  · obtain ⟨hascii, htrailing, hleading⟩ := leadingByte_four (v / 262144 % 0x08) (by omega)
    refine splitFirstChar32_cons hascii htrailing hleading rfl
      ((addTrailingBytes_cons (hmod (v / 4096)) _ _).trans
        ((addTrailingBytes_cons (hmod (v / 64)) _ _).trans (addTrailingBytes_cons (hmod v) _ _)))
      ?_ ?_ |>.trans ?_
    · omega
    · omega
    · congr 2
      omega

end Mozkey.Base
