import Mozkey.Storage.Louds.BitStream

/-! Numbers in memory, least significant byte first: what is stored, what is loaded, and what a store
leaves of the other bytes. -/

namespace Mozkey.Storage

def leBytes : (width : Nat) → Nat → Bytes
  | 0, _ => []
  | width + 1, value => UInt8.ofNat value :: leBytes width (value / 2 ^ 8)

def loadLe (width : Nat) (data : Bytes) (offset : Nat) : Option Nat :=
  if offset + width ≤ data.length then some (leValue ((data.drop offset).take width)) else none

/-- The bytes with others in their place, or nothing where these do not fit. -/
def store (buffer : Bytes) (offset : Nat) (bytes : Bytes) : Option Bytes :=
  if offset + bytes.length ≤ buffer.length then
    some (buffer.take offset ++ bytes ++ buffer.drop (offset + bytes.length))
  else none

section

variable {width value offset : Nat} {data xs ys zs bytes : Bytes}

@[simp] theorem length_leBytes (width value : Nat) : (leBytes width value).length = width := by
  induction width generalizing value with
  | zero => rfl
  | succ width ih => rw [leBytes, List.length_cons, ih]

theorem leValue_leBytes (width value : Nat) :
    leValue (leBytes width value) = value % 2 ^ (8 * width) := by
  induction width generalizing value with
  | zero => rw [leBytes, leValue, Nat.mul_zero, Nat.pow_zero, Nat.mod_one]
  | succ width ih =>
    rw [leBytes, leValue, ih, UInt8.toNat_ofNat', Nat.mul_succ, Nat.add_comm (8 * width), Nat.pow_add,
      Nat.mod_mul]

theorem loadUint32_eq_loadLe (data : Bytes) (offset : Nat) :
    loadUint32 data offset = loadLe 4 data offset := rfl

theorem loadLe_append (h : bytes.length = width) (hoffset : xs.length = offset) :
    loadLe width (xs ++ (bytes ++ zs)) offset = some (leValue bytes) := by
  subst h hoffset
  rw [loadLe, if_pos (by simp), List.drop_left, List.take_left]

theorem loadLe_leBytes (hvalue : value < 2 ^ (8 * width)) (hoffset : xs.length = offset) :
    loadLe width (xs ++ (leBytes width value ++ zs)) offset = some value := by
  rw [loadLe_append (length_leBytes width value) hoffset, leValue_leBytes, Nat.mod_eq_of_lt hvalue]

theorem loadLe_lt (h : loadLe width data offset = some value) : value < 2 ^ (8 * width) := by
  rw [loadLe] at h
  split at h
  · rename_i hle
    cases h
    have hlength : ((data.drop offset).take width).length = width := by
      rw [List.length_take, List.length_drop]
      omega
    exact (leValue_lt _).trans_le (by rw [hlength])
  · cases h

theorem store_append (h : bytes.length = ys.length) (hoffset : xs.length = offset) :
    store (xs ++ (ys ++ zs)) offset bytes = some (xs ++ (bytes ++ zs)) := by
  subst hoffset
  rw [store, if_pos (by simp; omega), List.take_left, h, ← List.drop_drop, List.drop_left,
    List.drop_left, List.append_assoc]

end

end Mozkey.Storage
