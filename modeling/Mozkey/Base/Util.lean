import Mozkey.Base.Utf8

/-! Functions of `base/util.cc` and `base/strings/unicode.h` on UTF-8 text. -/

namespace Mozkey.Base

open Storage

def oneCharLen (b : UInt8) : Nat :=
  if b < 0xc2 then 1 else if b < 0xe0 then 2 else if b < 0xf0 then 3 else if b < 0xf5 then 4 else 1

def frontChar : Bytes → Bytes × Bytes
  | [] => ([], [])
  | b :: s => ((b :: s).take (oneCharLen b), (b :: s).drop (oneCharLen b))

def charsLenLoop : Nat → Bytes → Nat
  | _, [] => 0
  | 0, _ :: _ => 0
  | fuel + 1, b :: s => charsLenLoop fuel ((b :: s).drop (oneCharLen b)) + 1

def charsLen (s : Bytes) : Nat := charsLenLoop s.length s

def utf8ToUtf32Loop : Nat → Bytes → List Nat
  | 0, _ => []
  | fuel + 1, s =>
    match splitFirstChar32 s with
    | none => []
    | some (c, rest) => c :: utf8ToUtf32Loop fuel rest

/-- `Util::Utf8ToUtf32`, and the characters that a `ConstChar32Iterator` goes through. -/
def utf8ToUtf32 (s : Bytes) : List Nat := utf8ToUtf32Loop s.length s

def codepointToUtf8 (c : Nat) : Bytes := String.utf8EncodeChar (Char.ofNat c)

/-- The upper case letters, of half and of full width. -/
def isUpper (c : Nat) : Bool := (0x41 ≤ c && c ≤ 0x5a) || (0xff21 ≤ c && c ≤ 0xff3a)

def lowerStringLoop : Nat → Bytes → Bytes
  | 0, s => s
  | fuel + 1, s =>
    match splitFirstChar32 s with
    | some (c, rest) =>
      (if isUpper c then codepointToUtf8 (c + 0x20) else s.take (s.length - rest.length)) ++
        lowerStringLoop fuel rest
    | none => s.take 1 ++ lowerStringLoop fuel (s.drop 1)

def lowerString (s : Bytes) : Bytes := lowerStringLoop s.length s

def chopReturns (line : Bytes) : Bytes :=
  line.rdropWhile fun b => b = 0x0d ∨ b = 0x0a

def lowerChar (c : Char) : Char := if isUpper c.toNat then Char.ofNat (c.toNat + 0x20) else c

theorem length_utf8EncodeChar (c : Char) : (String.utf8EncodeChar c).length =
    if c.toNat ≤ 0x7f then 1 else if c.toNat ≤ 0x7ff then 2 else if c.toNat ≤ 0xffff then 3 else 4 := by
  rw [String.length_utf8EncodeChar]
  rfl

theorem toNat_lowerChar {c : Char} (h : isUpper c.toNat = true) :
    (Char.ofNat (c.toNat + 0x20)).toNat = c.toNat + 0x20 := by
  rw [isUpper, Bool.or_eq_true, Bool.and_eq_true, Bool.and_eq_true] at h
  rw [Char.toNat_ofNat, if_pos]
  rcases h with ⟨hlow, hhigh⟩ | ⟨hlow, hhigh⟩
  · have hlt : c.toNat ≤ 0x5a := of_decide_eq_true hhigh
    exact .inl (by omega)
  · have hlt : c.toNat ≤ 0xff3a := of_decide_eq_true hhigh
    have hgt : 0xff21 ≤ c.toNat := of_decide_eq_true hlow
    exact .inr ⟨by omega, by omega⟩

theorem length_lowerChar (c : Char) :
    (String.utf8EncodeChar (lowerChar c)).length = (String.utf8EncodeChar c).length := by
  rw [lowerChar]
  split
  · rename_i h
    rw [length_utf8EncodeChar, length_utf8EncodeChar, toNat_lowerChar h]
    rw [isUpper, Bool.or_eq_true, Bool.and_eq_true, Bool.and_eq_true] at h
    rcases h with ⟨hlow, hhigh⟩ | ⟨hlow, hhigh⟩
    · have hlt : c.toNat ≤ 0x5a := of_decide_eq_true hhigh
      rw [if_pos (by omega), if_pos (by omega)]
    · have hlt : c.toNat ≤ 0xff3a := of_decide_eq_true hhigh
      have hgt : 0xff21 ≤ c.toNat := of_decide_eq_true hlow
      rw [if_neg (by omega), if_neg (by omega), if_pos (by omega), if_neg (by omega),
        if_neg (by omega), if_pos (by omega)]
  · rfl

theorem length_utf8_lower (cs : List Char) : (utf8 (cs.map lowerChar)).length = (utf8 cs).length := by
  induction cs with
  | nil => rfl
  | cons c cs ih =>
    rw [List.map_cons, utf8_cons, utf8_cons, List.length_append, List.length_append, ih,
      length_lowerChar]

theorem lowerStringLoop_nil (fuel : Nat) : lowerStringLoop fuel [] = [] := by
  induction fuel with
  | zero => rfl
  | succ fuel ih => exact ih

theorem lowerStringLoop_utf8 {fuel : Nat} (cs : List Char) (h : (utf8 cs).length ≤ fuel) :
    lowerStringLoop fuel (utf8 cs) = utf8 (cs.map lowerChar) := by
  induction cs generalizing fuel with
  | nil => exact lowerStringLoop_nil fuel
  | cons c cs ih =>
    have hpos : 0 < (String.utf8EncodeChar c).length :=
      List.length_pos_iff.mpr String.utf8EncodeChar_ne_nil
    rw [utf8_cons, List.length_append] at h
    obtain ⟨fuel, rfl⟩ : ∃ n, fuel = n + 1 := ⟨fuel - 1, by omega⟩
    rw [utf8_cons, lowerStringLoop, splitFirstChar32_utf8]
    dsimp only
    rw [ih (by omega), List.map_cons, utf8_cons]
    congr 1
    split
    · rename_i hupper
      rw [codepointToUtf8, lowerChar, if_pos hupper]
    · rename_i hupper
      rw [lowerChar, if_neg hupper, List.length_append, Nat.add_sub_cancel, List.take_left]

theorem lowerString_utf8 (cs : List Char) : lowerString (utf8 cs) = utf8 (cs.map lowerChar) :=
  lowerStringLoop_utf8 cs le_rfl

end Mozkey.Base
