import Mozkey.Base.Codepoint

/-! `EncodeValue` and `DecodeValue` of `dictionary/system/codec.cc`: a code point has one of eight
encodings, which the first byte, or the marks in the second one, tell apart. -/

namespace Mozkey.Dictionary

open Storage Base Lib

def kValueCharMarkAscii : Nat := 0xfc

def kValueCharMarkXX00 : Nat := 0xfd

def kValueCharMarkOtherUcs2 : Nat := 0xfe

def kValueCharMarkCodepoint : Nat := 0xff

def kValueCharMarkCodepointMiddle0 : Nat := 0x80

def kValueCharMarkCodepointRight0 : Nat := 0x40

def kValueCharMarkCodepointLeftMask : Nat := 0x1f

def kValueKanjiOffset : Nat := 0x01

def kValueHiraganaOffset : Nat := 0x4b

def kValueKatakanaOffset : Nat := 0x9f

/-- The first byte behind the mark of a code point beyond 16 bits. -/
def codepointLeft (c : Nat) : Nat :=
  ((c >>> 16) &&& 255) |||
    (if (c >>> 8) &&& 255 = 0 then kValueCharMarkCodepointMiddle0 else 0) |||
    (if c &&& 255 = 0 then kValueCharMarkCodepointRight0 else 0)

/-- What `EncodeValue` appends for one code point. -/
def encodeCodepoint (c : Nat) : Bytes :=
  if 0x3041 ≤ c ∧ c < 0x3095 then [UInt8.ofNat (c - 0x3041 + kValueHiraganaOffset)]
  else if 0x30a1 ≤ c ∧ c < 0x30fd then [UInt8.ofNat (c - 0x30a1 + kValueKatakanaOffset)]
  else if c < 0x10000 ∧ (c >>> 8) &&& 255 = 0 then
    [UInt8.ofNat kValueCharMarkAscii, UInt8.ofNat (c &&& 255)]
  else if c < 0x10000 ∧ c &&& 255 = 0 then
    [UInt8.ofNat kValueCharMarkXX00, UInt8.ofNat ((c >>> 8) &&& 255)]
  else if 0x4e00 ≤ c ∧ c < 0x9800 then
    [UInt8.ofNat (((c - 0x4e00) >>> 8) + kValueKanjiOffset), UInt8.ofNat (c &&& 255)]
  else if 0x10000 ≤ c ∧ c ≤ 0x10ffff then
    [UInt8.ofNat kValueCharMarkCodepoint, UInt8.ofNat (codepointLeft c)] ++
      (if (c >>> 8) &&& 255 ≠ 0 then [UInt8.ofNat ((c >>> 8) &&& 255)] else []) ++
      (if c &&& 255 ≠ 0 then [UInt8.ofNat (c &&& 255)] else [])
  else
    [UInt8.ofNat kValueCharMarkOtherUcs2, UInt8.ofNat ((c >>> 8) &&& 255), UInt8.ofNat (c &&& 255)]

def encodeValue (src : Bytes) : Bytes := (utf8ToUtf32 src).flatMap encodeCodepoint

/-- The byte that a code point beyond 16 bits has only where its mark is not set. -/
def readUnmarked (left mark : Nat) : Bytes → Option (Nat × Bytes)
  | p => if left &&& mark ≠ 0 then some (0, p) else p.head?.map fun b => (b.toNat, p.tail)

/-- A round of the loop of `DecodeValue` for a code point of more than one byte. -/
def decodeLong (cc : Nat) : Bytes → Option (Nat × Bytes)
  | [] => none
  | b :: p =>
    if cc = kValueCharMarkAscii then some (b.toNat, p)
    else if cc = kValueCharMarkXX00 then some (b.toNat <<< 8, p)
    else if cc = kValueCharMarkCodepoint then do
      let (middle, p) ← readUnmarked b.toNat kValueCharMarkCodepointMiddle0 p
      let (right, p) ← readUnmarked b.toNat kValueCharMarkCodepointRight0 p
      return (((b.toNat &&& kValueCharMarkCodepointLeftMask) <<< 16) + (middle <<< 8) + right, p)
    else if cc = kValueCharMarkOtherUcs2 then
      p.head?.map fun b' => ((b.toNat <<< 8) + b'.toNat, p.tail)
    else some ((cc <<< 8) + 0x4e00 - (kValueKanjiOffset <<< 8) + b.toNat, p)

/-- A round of the loop of `DecodeValue`; without result it reads past the end. -/
def decodeCodepoint : Bytes → Option (Nat × Bytes)
  | [] => none
  | b :: p =>
    let cc := b.toNat
    if kValueHiraganaOffset ≤ cc ∧ cc < kValueKatakanaOffset then
      some (0x3041 + cc - kValueHiraganaOffset, p)
    else if kValueKatakanaOffset ≤ cc ∧ cc < kValueCharMarkAscii then
      some (0x30a1 + cc - kValueKatakanaOffset, p)
    else decodeLong cc p

/-- Every round takes a byte or more, so that the length of the text is fuel enough. -/
def decodeValueLoop : Nat → Bytes → Option Bytes
  | _, [] => some []
  | 0, _ :: _ => none
  | fuel + 1, b :: p => do
    let (c, p) ← decodeCodepoint (b :: p)
    return Util.codepointToUtf8 c ++ (← decodeValueLoop fuel p)

def decodeValue (src : Bytes) : Option Bytes := decodeValueLoop src.length src

theorem low_byte (c : Nat) : c &&& 255 = c % 256 := Nat.and_two_pow_sub_one_eq_mod c 8

theorem middle_byte (c : Nat) : (c >>> 8) &&& 255 = c / 256 % 256 := low_bits c 8 8

theorem left_byte (c : Nat) : (c >>> 16) &&& 255 = c / 65536 % 256 := low_bits c 16 8

theorem marks_spec : ∀ x < 17, ∀ m r : Bool,
    let left := x ||| (if m then kValueCharMarkCodepointMiddle0 else 0) |||
      (if r then kValueCharMarkCodepointRight0 else 0)
    left < 256 ∧ left &&& kValueCharMarkCodepointLeftMask = x ∧
      (left &&& kValueCharMarkCodepointMiddle0 ≠ 0 ↔ m = true) ∧
      (left &&& kValueCharMarkCodepointRight0 ≠ 0 ↔ r = true) ∧ x ≤ left := by
  decide

theorem codepointLeft_spec {c : Nat} (h : c ≤ 0x10ffff) :
    codepointLeft c < 256 ∧
      codepointLeft c &&& kValueCharMarkCodepointLeftMask = c / 65536 ∧
      (codepointLeft c &&& kValueCharMarkCodepointMiddle0 ≠ 0 ↔ c / 256 % 256 = 0) ∧
      (codepointLeft c &&& kValueCharMarkCodepointRight0 ≠ 0 ↔ c % 256 = 0) ∧
      c / 65536 ≤ codepointLeft c := by
  have hspec := marks_spec (c / 65536) (by omega) (c / 256 % 256 = 0) (c % 256 = 0)
  have hleft : c / 65536 % 256 = c / 65536 := by omega
  rw [codepointLeft, left_byte, middle_byte, low_byte, hleft]
  simpa only [decide_eq_true_eq] using hspec

theorem toNat_byte {n : Nat} (h : n < 256) : (UInt8.ofNat n).toNat = n := by
  rw [UInt8.toNat_ofNat']
  exact Nat.mod_eq_of_lt h

theorem readUnmarked_append {left mark n : Nat} (hn : n < 256) (hmark : left &&& mark ≠ 0 ↔ n = 0)
    (rest : Bytes) :
    readUnmarked left mark ((if n ≠ 0 then [UInt8.ofNat n] else []) ++ rest) = some (n, rest) := by
  rw [readUnmarked]
  by_cases hzero : n = 0
  · rw [if_pos (hmark.mpr hzero), if_neg (not_not.mpr hzero), List.nil_append, hzero]
  · rw [if_neg (mt hmark.mp hzero), if_pos hzero, List.singleton_append, List.head?_cons,
      Option.map_some, List.tail_cons, toNat_byte hn]

theorem decodeCodepoint_cons {n : Nat} (hn : n < 256) (p : Bytes) :
    decodeCodepoint (UInt8.ofNat n :: p) =
      if kValueHiraganaOffset ≤ n ∧ n < kValueKatakanaOffset then
        some (0x3041 + n - kValueHiraganaOffset, p)
      else if kValueKatakanaOffset ≤ n ∧ n < kValueCharMarkAscii then
        some (0x30a1 + n - kValueKatakanaOffset, p)
      else decodeLong n p := by
  rw [decodeCodepoint]
  simp only [toNat_byte hn]

theorem decodeLong_cons {cc n : Nat} (hn : n < 256) (p : Bytes) :
    decodeLong cc (UInt8.ofNat n :: p) =
      if cc = kValueCharMarkAscii then some (n, p)
      else if cc = kValueCharMarkXX00 then some (n <<< 8, p)
      else if cc = kValueCharMarkCodepoint then
        (readUnmarked n kValueCharMarkCodepointMiddle0 p).bind fun middle =>
          (readUnmarked n kValueCharMarkCodepointRight0 middle.2).bind fun right =>
            some (((n &&& kValueCharMarkCodepointLeftMask) <<< 16) + (middle.1 <<< 8) + right.1, right.2)
      else if cc = kValueCharMarkOtherUcs2 then
        p.head?.map fun b => ((n <<< 8) + b.toNat, p.tail)
      else some ((cc <<< 8) + 0x4e00 - (kValueKanjiOffset <<< 8) + n, p) := by
  rw [decodeLong, toNat_byte hn]
  rfl

theorem decodeCodepoint_append {c : Nat} (h : c ≤ 0x10ffff) (rest : Bytes) :
    decodeCodepoint (encodeCodepoint c ++ rest) = some (c, rest) := by
  have hlow : c % 256 < 256 := Nat.mod_lt _ (by decide)
  have hmid : c / 256 % 256 < 256 := Nat.mod_lt _ (by decide)
  rw [encodeCodepoint, middle_byte, low_byte]
  split
  · have hbyte : c - 0x3041 + kValueHiraganaOffset < kValueKatakanaOffset := by
      rw [kValueHiraganaOffset, kValueKatakanaOffset]
      omega
    rw [List.singleton_append, decodeCodepoint_cons (Nat.lt_trans hbyte (by decide)),
      if_pos ⟨Nat.le_add_left _ _, hbyte⟩]
    have hvalue : 0x3041 + (c - 0x3041 + kValueHiraganaOffset) - kValueHiraganaOffset = c := by
      omega
    rw [hvalue]
  split
  · have hbyte : c - 0x30a1 + kValueKatakanaOffset < kValueCharMarkAscii := by
      rw [kValueKatakanaOffset, kValueCharMarkAscii]
      omega
    rw [List.singleton_append, decodeCodepoint_cons (Nat.lt_trans hbyte (by decide)),
      if_neg (by omega), if_pos ⟨Nat.le_add_left _ _, hbyte⟩]
    have hvalue : 0x30a1 + (c - 0x30a1 + kValueKatakanaOffset) - kValueKatakanaOffset = c := by
      omega
    rw [hvalue]
  split
  · rw [List.cons_append, List.singleton_append, decodeCodepoint_cons (by decide),
      if_neg (by decide), if_neg (by decide), decodeLong_cons hlow, if_pos rfl]
    congr 2
    omega
  split
  · rw [List.cons_append, List.singleton_append, decodeCodepoint_cons (by decide),
      if_neg (by decide), if_neg (by decide), decodeLong_cons hmid, if_neg (by decide), if_pos rfl,
      Nat.shiftLeft_eq]
    congr 2
    omega
  split
  · have hhigh : (c - 0x4e00) / 2 ^ 8 + kValueKanjiOffset < kValueHiraganaOffset := by
      rw [kValueKanjiOffset, kValueHiraganaOffset]
      omega
    have hmark : ∀ mark, kValueHiraganaOffset ≤ mark →
        (c - 0x4e00) / 2 ^ 8 + kValueKanjiOffset ≠ mark := by
      intro mark hmark
      omega
    rw [List.cons_append, List.singleton_append, Nat.shiftRight_eq_div_pow,
      decodeCodepoint_cons (Nat.lt_trans hhigh (by decide)), if_neg (by omega),
      if_neg fun hkatakana => absurd (Nat.lt_of_le_of_lt hkatakana.1 hhigh) (by decide),
      decodeLong_cons hlow, if_neg (hmark _ (by decide)), if_neg (hmark _ (by decide)),
      if_neg (hmark _ (by decide)), if_neg (hmark _ (by decide)), Nat.shiftLeft_eq,
      Nat.shiftLeft_eq]
    congr 2
    rw [kValueKanjiOffset]
    omega
  split
  · obtain ⟨hlt, hleft, hmiddle, hright, -⟩ := codepointLeft_spec h
    rw [List.append_assoc, List.append_assoc, List.cons_append, List.singleton_append,
      decodeCodepoint_cons (by decide), if_neg (by decide), if_neg (by decide), decodeLong_cons hlt,
      if_neg (by decide), if_neg (by decide), if_pos rfl, readUnmarked_append hmid hmiddle,
      Option.bind_some, readUnmarked_append hlow hright, Option.bind_some, hleft, Nat.shiftLeft_eq,
      Nat.shiftLeft_eq]
    congr 2
    dsimp only
    omega
  · rw [List.cons_append, List.cons_append, List.singleton_append, decodeCodepoint_cons (by decide),
      if_neg (by decide), if_neg (by decide), decodeLong_cons hmid, if_neg (by decide),
      if_neg (by decide), if_neg (by decide), if_pos rfl, List.head?_cons, Option.map_some,
      List.tail_cons, toNat_byte hlow, Nat.shiftLeft_eq]
    congr 2
    omega

theorem encodeCodepoint_zero_notMem {c : Nat} (hpos : c ≠ 0) (h : c ≤ 0x10ffff) :
    0 ∉ encodeCodepoint c := by
  have hbyte : ∀ n, n < 256 → n ≠ 0 → (0 : UInt8) ≠ UInt8.ofNat n := by
    intro n hn hne heq
    have hval := congrArg UInt8.toNat heq
    rw [toNat_byte hn] at hval
    exact hne hval.symm
  have hlow : c % 256 < 256 := Nat.mod_lt _ (by decide)
  have hmid : c / 256 % 256 < 256 := Nat.mod_lt _ (by decide)
  rw [encodeCodepoint, middle_byte, low_byte, kValueHiraganaOffset, kValueKatakanaOffset,
    kValueKanjiOffset]
  split
  · rw [List.mem_singleton]
    exact hbyte _ (by omega) (by omega)
  split
  · rw [List.mem_singleton]
    exact hbyte _ (by omega) (by omega)
  split
  · rw [List.mem_cons, List.mem_singleton, not_or]
    exact ⟨hbyte _ (by decide) (by decide), hbyte _ hlow (by omega)⟩
  split
  · rw [List.mem_cons, List.mem_singleton, not_or]
    exact ⟨hbyte _ (by decide) (by decide), hbyte _ hmid (by omega)⟩
  split
  · rw [List.mem_cons, List.mem_singleton, not_or, Nat.shiftRight_eq_div_pow]
    exact ⟨hbyte _ (by omega) (by omega), hbyte _ hlow (by omega)⟩
  split
  · obtain ⟨hlt, -, -, -, hle⟩ := codepointLeft_spec h
    have hmarked : ∀ n, n < 256 → 0 ∉ if n ≠ 0 then [UInt8.ofNat n] else [] := by
      intro n hn
      split
      · rename_i hne
        rw [List.mem_singleton]
        exact hbyte n hn hne
      · exact List.not_mem_nil
    simp only [List.mem_append, List.mem_cons, List.not_mem_nil, or_false, not_or]
    exact ⟨⟨⟨hbyte _ (by decide) (by decide), hbyte _ hlt (by omega)⟩, hmarked _ hmid⟩,
      hmarked _ hlow⟩
  · rw [List.mem_cons, List.mem_cons, List.mem_singleton, not_or, not_or]
    exact ⟨hbyte _ (by decide) (by decide), hbyte _ hmid (by omega), hbyte _ hlow (by omega)⟩

theorem readsOff_encodeCodepoint :
    ReadsOff (fun p => (decodeCodepoint p).map fun r => ((Fin.ofNat 0x110000 r.1 : Codepoint), r.2))
      fun c : Codepoint => encodeCodepoint c where
  read_append c rest := by
    rw [decodeCodepoint_append (Nat.le_of_lt_succ c.isLt), Option.map_some, Fin.ofNat_val_eq_self]
  read_nil := rfl

theorem encodeValue_text (cs : List Codepoint) :
    encodeValue (text cs) = cs.flatMap fun c : Codepoint => encodeCodepoint c := by
  rw [encodeValue, utf8ToUtf32_text, List.flatMap_map]

theorem decodeValueLoop_flatMap (cs : List Codepoint) {fuel : Nat}
    (hfuel : (cs.flatMap fun c : Codepoint => encodeCodepoint c).length ≤ fuel) :
    decodeValueLoop fuel (cs.flatMap fun c : Codepoint => encodeCodepoint c) =
      some (cs.flatMap fun c : Codepoint => Util.codepointToUtf8 c) := by
  induction cs generalizing fuel with
  | nil => cases fuel <;> rfl
  | cons c cs ih =>
    have hdecode := decodeCodepoint_append (Nat.le_of_lt_succ c.isLt)
      (cs.flatMap fun c : Codepoint => encodeCodepoint c)
    have hne := readsOff_encodeCodepoint.ne_nil c
    rw [List.flatMap_cons] at hfuel ⊢
    generalize encodeCodepoint c = bytes at hdecode hne hfuel
    obtain ⟨b, p, rfl⟩ := List.exists_cons_of_ne_nil hne
    rw [List.length_append, List.length_cons] at hfuel
    obtain ⟨fuel, rfl⟩ : ∃ n, fuel = n + 1 := ⟨fuel - 1, by omega⟩
    rw [List.cons_append] at hdecode
    rw [List.cons_append, decodeValueLoop, hdecode, Option.bind_eq_bind, Option.bind_some]
    dsimp only
    rw [ih (by omega), List.flatMap_cons]
    rfl

theorem flatMap_codepointToUtf8 (cs : List Codepoint) :
    (cs.flatMap fun c : Codepoint => Util.codepointToUtf8 c) = text (cs.filter (· ≠ 0)) := by
  induction cs with
  | nil => rfl
  | cons c cs ih =>
    rw [List.flatMap_cons, ih]
    by_cases hzero : c = 0
    · rw [List.filter_cons_of_neg (by simpa using hzero), hzero]
      rfl
    · rw [List.filter_cons_of_pos (by simpa using hzero), text_cons, Codepoint.bytes, if_neg hzero]

/-- A value is read back but for U+0000, of which the decoder writes nothing.  No byte of an encoding
is zero but those of U+0000, no encoding of a code point is the beginning of another one, and the
encodings of values begin with each other exactly where the values do. -/
theorem encodeValue_spec (cs ds : List Codepoint) :
    decodeValue (encodeValue (text cs)) = some (text (cs.filter (· ≠ 0))) ∧
    (0 ∉ cs → decodeValue (encodeValue (text cs)) = some (text cs) ∧ 0 ∉ encodeValue (text cs)) ∧
    (∀ c d : Codepoint, encodeCodepoint c <+: encodeCodepoint d → c = d) ∧
    (encodeValue (text cs) = encodeValue (text ds) → cs = ds) ∧
    (encodeValue (text cs) <+: encodeValue (text ds) ↔ cs <+: ds) := by
  have hdecode : decodeValue (encodeValue (text cs)) = some (text (cs.filter (· ≠ 0))) := by
    rw [decodeValue, encodeValue_text, decodeValueLoop_flatMap cs le_rfl, flatMap_codepointToUtf8]
  refine ⟨hdecode, ?_, fun c d => readsOff_encodeCodepoint.prefixFree, ?_, ?_⟩
  · intro hzero
    have hall : cs.filter (· ≠ 0) = cs := by
      rw [List.filter_eq_self]
      intro c hc
      exact decide_eq_true (ne_of_mem_of_not_mem hc hzero)
    refine ⟨by rw [hdecode, hall], ?_⟩
    rw [encodeValue_text, List.mem_flatMap]
    rintro ⟨c, hc, hmem⟩
    refine encodeCodepoint_zero_notMem ?_ (Nat.le_of_lt_succ c.isLt) hmem
    intro hval
    exact ne_of_mem_of_not_mem hc hzero (Fin.ext hval)
  · rw [encodeValue_text, encodeValue_text]
    exact fun heq => readsOff_encodeCodepoint.flatMap_injective heq
  · rw [encodeValue_text, encodeValue_text]
    exact readsOff_encodeCodepoint.flatMap_prefix_iff

/-- U+0000 is not read back. -/
theorem not_decodeValue_encodeValue_zero :
    ¬ ∀ cs : List Codepoint, decodeValue (encodeValue (text cs)) = some (text cs) := by
  intro h
  exact absurd (h [0]) (by decide)

end Mozkey.Dictionary
