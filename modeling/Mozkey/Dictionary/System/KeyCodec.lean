import Mozkey.Base.Codepoint

/-! `EncodeKey` and `DecodeKey` of `dictionary/system/codec.cc`: hiragana change places with control
codes and letters, and the lengths of keys are computed without the keys. -/

namespace Mozkey.Dictionary

open Storage Base

/-- The distance to the code point that `EncodeDecodeKeyImpl` writes. -/
def swapOffset (code : Nat) : Nat :=
  if (0x0001 ≤ code ∧ code ≤ 0x001f) ∨ (0x3041 ≤ code ∧ code ≤ 0x305f) then 0x3041 - 0x0001
  else if (0x0040 ≤ code ∧ code ≤ 0x0075) ∨ (0x3060 ≤ code ∧ code ≤ 0x3095) then 0x3060 - 0x0040
  else if (0x0076 ≤ code ∧ code ≤ 0x0077) ∨ (0x30fb ≤ code ∧ code ≤ 0x30fc) then 0x30fb - 0x0076
  else 0

def swapCode (code : Nat) : Nat :=
  if code < 0x80 then code + swapOffset code else code - swapOffset code

def encodeDecodeKeyImpl (src : Bytes) : Bytes :=
  (utf8ToUtf32 src).flatMap fun code => Util.codepointToUtf8 (swapCode code)

/-- What a code point adds to the length in `GetEncodedDecodedKeyLengthImpl`. -/
def swapLength (code : Nat) : Int :=
  if (0x3041 ≤ code ∧ code ≤ 0x3095) ∨ (0x30fb ≤ code ∧ code ≤ 0x30fc) then -2
  else if (0x0001 ≤ code ∧ code ≤ 0x001f) ∨ (0x0040 ≤ code ∧ code ≤ 0x0077) then 2
  else 0

def getEncodedDecodedKeyLengthImpl (src : Bytes) : Int :=
  (utf8ToUtf32 src).foldl (fun size code => size + swapLength code) src.length

def encodeKey (src : Bytes) : Bytes := encodeDecodeKeyImpl src

def decodeKey (src : Bytes) : Bytes := encodeDecodeKeyImpl src

def getEncodedKeyLength (src : Bytes) : Int := getEncodedDecodedKeyLengthImpl src

def getDecodedKeyLength (src : Bytes) : Int := getEncodedDecodedKeyLengthImpl src

theorem swapCode_lt {code : Nat} (hlt : code < 0x110000) : swapCode code < 0x110000 := by
  unfold swapCode swapOffset
  grind

theorem swapCode_involutive (code : Nat) : swapCode (swapCode code) = code := by
  unfold swapCode swapOffset
  grind

theorem swapCode_eq_zero {code : Nat} : swapCode code = 0 ↔ code = 0 := by
  unfold swapCode swapOffset
  grind

/-- The code point that takes the place of another one. -/
def swap (c : Codepoint) : Codepoint := ⟨swapCode c.val, swapCode_lt c.isLt⟩

theorem swap_swap (c : Codepoint) : swap (swap c) = c := Fin.ext (swapCode_involutive c.val)

theorem swap_eq_zero {c : Codepoint} : swap c = 0 ↔ c = 0 := by
  rw [Fin.ext_iff, Fin.ext_iff]
  exact swapCode_eq_zero

theorem zero_notMem_map_swap {cs : List Codepoint} (hzero : 0 ∉ cs) : 0 ∉ cs.map swap := by
  rw [List.mem_map]
  rintro ⟨c, hc, heq⟩
  rw [swap_eq_zero] at heq
  exact hzero (heq ▸ hc)

theorem map_swap_map_swap (cs : List Codepoint) : (cs.map swap).map swap = cs := by
  rw [List.map_map]
  have hid : swap ∘ swap = id := funext swap_swap
  rw [hid, List.map_id]

theorem length_bytes_swap (c : Codepoint) :
    ((swap c).bytes.length : Int) = c.bytes.length + swapLength c.val := by
  rw [Codepoint.length_bytes, Codepoint.length_bytes]
  show ((if swapCode c.val < 0x80 then 1 else if swapCode c.val < 0x800 then 2
    else if swapCode c.val < 0x10000 then 3 else 4 : Nat) : Int) = _
  unfold swapCode swapOffset swapLength
  grind

theorem codepointToUtf8_swap {c : Codepoint} (hne : c ≠ 0) :
    Util.codepointToUtf8 (swapCode c.val) = (swap c).bytes := by
  have hswap : swap c ≠ 0 := fun heq => hne (swap_eq_zero.mp heq)
  rw [Codepoint.bytes, if_neg hswap]
  rfl

theorem encodeDecodeKeyImpl_text {cs : List Codepoint} (hzero : 0 ∉ cs) :
    encodeDecodeKeyImpl (text cs) = text (cs.map swap) := by
  rw [encodeDecodeKeyImpl, utf8ToUtf32_text, text, List.flatMap_map, List.flatMap_map]
  apply List.flatMap_congr
  intro c hc
  exact codepointToUtf8_swap (ne_of_mem_of_not_mem hc hzero)

/-- The loop over the lengths starts with any size, and ends with the length of the written text
when it starts with the length of the read one. -/
theorem foldl_swapLength (cs : List Codepoint) (size : Int) :
    (cs.map Fin.val).foldl (fun size code => size + swapLength code) size =
      size + ((text (cs.map swap)).length - (text cs).length) := by
  induction cs generalizing size with
  | nil => simp [text]
  | cons c cs ih =>
    have hswap := length_bytes_swap c
    rw [List.map_cons, List.foldl_cons, ih, List.map_cons, text_cons, text_cons, List.length_append,
      List.length_append]
    push_cast
    omega

theorem getEncodedDecodedKeyLengthImpl_text (cs : List Codepoint) :
    getEncodedDecodedKeyLengthImpl (text cs) = (text (cs.map swap)).length := by
  rw [getEncodedDecodedKeyLengthImpl, utf8ToUtf32_text, foldl_swapLength]
  omega

/-- Encoding twice gives the key back; one character becomes one character, which is not U+0000, so
that the encoding goes through concatenations and through the first characters of a key; and the
computed lengths are the lengths of what is written. -/
theorem encodeKey_spec {cs : List Codepoint} (hzero : 0 ∉ cs) :
    decodeKey (encodeKey (text cs)) = text cs ∧
    encodeKey (text cs) = text (cs.map swap) ∧ 0 ∉ cs.map swap ∧
    (∀ ds : List Codepoint, 0 ∉ ds →
      encodeKey (text cs ++ text ds) = encodeKey (text cs) ++ encodeKey (text ds)) ∧
    (∀ n, encodeKey (text (cs.take n)) = text ((cs.map swap).take n)) ∧
    getDecodedKeyLength (encodeKey (text cs)) = (text cs).length ∧
    getEncodedKeyLength (text cs) = (encodeKey (text cs)).length := by
  have hencode : encodeKey (text cs) = text (cs.map swap) := encodeDecodeKeyImpl_text hzero
  have hswapped := zero_notMem_map_swap hzero
  refine ⟨?_, hencode, hswapped, ?_, ?_, ?_, ?_⟩
  · rw [hencode, decodeKey, encodeDecodeKeyImpl_text hswapped, map_swap_map_swap]
  · intro ds hds
    have happend : 0 ∉ cs ++ ds := by
      rw [List.mem_append]
      exact not_or.mpr ⟨hzero, hds⟩
    have hright : encodeKey (text ds) = text (ds.map swap) := encodeDecodeKeyImpl_text hds
    rw [hencode, hright, ← text_append, ← text_append, ← List.map_append]
    exact encodeDecodeKeyImpl_text happend
  · intro n
    rw [← List.map_take]
    exact encodeDecodeKeyImpl_text fun hmem => hzero (List.mem_of_mem_take hmem)
  · rw [hencode, getDecodedKeyLength, getEncodedDecodedKeyLengthImpl_text, map_swap_map_swap]
  · rw [hencode]
    exact getEncodedDecodedKeyLengthImpl_text cs

/-- あー, of one byte for each character in the dictionary. -/
theorem encodeKey_spec_hiragana :
    decodeKey (encodeKey (text [0x3042, 0x30fc])) = text [0x3042, 0x30fc] ∧
    encodeKey (text [0x3042, 0x30fc]) = [0x02, 0x77] :=
  have hspec := @encodeKey_spec [0x3042, 0x30fc] (by decide)
  ⟨hspec.1, hspec.2.1.trans (by decide)⟩

end Mozkey.Dictionary
