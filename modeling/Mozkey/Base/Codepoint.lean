import Mozkey.Base.Util
import Mozkey.Lib.PrefixCode

/-! `Util::CodepointToUtf8` of `base/util.cc`, and the texts of code points up to U+10FFFF, those of
surrogates and U+0000 among them. -/

namespace Mozkey.Base

open Storage Lib

def Util.codepointToUtf8 (c : Nat) : Bytes :=
  let trailing (shift : Nat) : UInt8 := UInt8.ofNat (0x80 + ((c >>> shift) &&& 0x3f))
  if c = 0 then []
  else if c < 0x80 then [UInt8.ofNat (c &&& 0xff)]
  else if c < 0x800 then [UInt8.ofNat (0xc0 + ((c >>> 6) &&& 0x1f)), trailing 0]
  else if c < 0x10000 then
    [UInt8.ofNat (0xe0 + ((c >>> 12) &&& 0x0f)), trailing 6, trailing 0]
  else if c < 0x200000 then
    [UInt8.ofNat (0xf0 + ((c >>> 18) &&& 0x07)), trailing 12, trailing 6, trailing 0]
  else if c < 0x8000000 then
    [UInt8.ofNat (0xf8 + ((c >>> 24) &&& 0x03)), trailing 18, trailing 12, trailing 6, trailing 0]
  else
    [UInt8.ofNat (0xfc + ((c >>> 30) &&& 0x01)), trailing 24, trailing 18, trailing 12, trailing 6,
      trailing 0]

abbrev Codepoint := Fin 0x110000

def Codepoint.bytes (c : Codepoint) : Bytes := if c = 0 then [0] else Util.codepointToUtf8 c

def text (cs : List Codepoint) : Bytes := cs.flatMap Codepoint.bytes

theorem text_cons (c : Codepoint) (cs : List Codepoint) : text (c :: cs) = c.bytes ++ text cs :=
  List.flatMap_cons

theorem text_append (cs ds : List Codepoint) : text (cs ++ ds) = text cs ++ text ds :=
  List.flatMap_append

theorem Codepoint.length_bytes (c : Codepoint) :
    c.bytes.length =
      if c.val < 0x80 then 1 else if c.val < 0x800 then 2 else if c.val < 0x10000 then 3 else 4 := by
  have hlt := c.isLt
  rw [Codepoint.bytes]
  split
  · rename_i hzero
    rw [hzero]
    rfl
  · rename_i hne
    have hpos : c.val ≠ 0 := fun hval => hne (Fin.ext hval)
    rw [Util.codepointToUtf8]
    simp only [if_neg hpos]
    split
    · rfl
    split
    · rfl
    split
    · rfl
    rw [if_pos (by omega)]
    rfl

theorem low_bits (c shift width : Nat) :
    (c >>> shift) &&& (2 ^ width - 1) = c / 2 ^ shift % 2 ^ width := by
  rw [Nat.and_two_pow_sub_one_eq_mod, Nat.shiftRight_eq_div_pow]

theorem splitFirstChar32_codepointToUtf8 {c : Nat} (hpos : c ≠ 0) (hlt : c < 0x200000) (rest : Bytes) :
    splitFirstChar32 (Util.codepointToUtf8 c ++ rest) = some (c, rest) := by
  have hmod : ∀ n, n % 64 < 64 := fun n => Nat.mod_lt n (by decide)
  have htrailing : ∀ shift, (c >>> shift) &&& 0x3f = c / 2 ^ shift % 64 := fun shift =>
    low_bits c shift 6
  have hsix : (c >>> 6) &&& 0x1f = c / 64 % 32 := low_bits c 6 5
  have htwelve : (c >>> 12) &&& 0x0f = c / 4096 % 16 := low_bits c 12 4
  have heighteen : (c >>> 18) &&& 0x07 = c / 262144 % 8 := low_bits c 18 3
  rw [Util.codepointToUtf8]
  simp only [htrailing, hsix, htwelve, heighteen, if_neg hpos, if_pos hlt, Nat.add_comm 0x80,
    Nat.add_comm 0xc0, Nat.add_comm 0xe0, Nat.add_comm 0xf0]
  split
  · rename_i hascii
    have hbyte : c &&& 0xff = c := by
      rw [show 0xff = 2 ^ 8 - 1 by rfl, Nat.and_two_pow_sub_one_eq_mod]
      omega
    have hb : (UInt8.ofNat c).toNat = c := by
      rw [UInt8.toNat_ofNat']
      omega
    have hbLt : UInt8.ofNat c < 0x80 := by
      rw [UInt8.lt_iff_toNat_lt, hb]
      exact hascii
    rw [hbyte, List.singleton_append, splitFirstChar32, if_pos hbLt, hb]
  split
  · obtain ⟨hascii, hlead, hleading⟩ := leadingByte_two (c / 64 % 32) (by omega)
    refine splitFirstChar32_cons hascii hlead hleading rfl
      (addTrailingBytes_cons (hmod _) _ _) ?_ ?_ |>.trans ?_
    · omega
    · omega
    · congr 2
      omega
  split
  · obtain ⟨hascii, hlead, hleading⟩ := leadingByte_three (c / 4096 % 16) (by omega)
    refine splitFirstChar32_cons hascii hlead hleading rfl
      ((addTrailingBytes_cons (hmod _) _ _).trans (addTrailingBytes_cons (hmod _) _ _))
      ?_ ?_ |>.trans ?_
    · omega
    · omega
    · congr 2
      omega
  · obtain ⟨hascii, hlead, hleading⟩ := leadingByte_four (c / 262144 % 8) (by omega)
    refine splitFirstChar32_cons hascii hlead hleading rfl
      ((addTrailingBytes_cons (hmod _) _ _).trans
        ((addTrailingBytes_cons (hmod _) _ _).trans (addTrailingBytes_cons (hmod _) _ _)))
      ?_ ?_ |>.trans ?_
    · omega
    · omega
    · congr 2
      omega

theorem splitFirstChar32_bytes (c : Codepoint) (rest : Bytes) :
    splitFirstChar32 (c.bytes ++ rest) = some (c.val, rest) := by
  rw [Codepoint.bytes]
  split
  · rename_i hzero
    rw [hzero]
    rfl
  · rename_i hne
    apply splitFirstChar32_codepointToUtf8
    · intro hval
      exact hne (Fin.ext hval)
    · exact Nat.lt_trans c.isLt (by decide)

theorem utf8ToUtf32_text (cs : List Codepoint) : utf8ToUtf32 (text cs) = cs.map Fin.val := by
  have hloop : ∀ fuel, (text cs).length ≤ fuel → utf8ToUtf32Loop fuel (text cs) = cs.map Fin.val := by
    induction cs with
    | nil =>
      intro fuel _
      cases fuel <;> rfl
    | cons c cs ih =>
      intro fuel hfuel
      have hread := splitFirstChar32_bytes c (text cs)
      have hshorter := length_lt_of_splitFirstChar32 hread
      rw [text_cons] at hfuel ⊢
      obtain ⟨fuel, rfl⟩ : ∃ n, fuel = n + 1 := ⟨fuel - 1, by omega⟩
      rw [utf8ToUtf32Loop, hread, List.map_cons]
      dsimp only
      rw [ih fuel (by omega)]
  exact hloop _ le_rfl

end Mozkey.Base
