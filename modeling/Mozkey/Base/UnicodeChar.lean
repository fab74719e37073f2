import Mozkey.Base.Char32Iterator

/-! `Utf8AsUnicodeChar` of `base/strings/unicode.h` over the decoder and the encoder of
`base/strings/internal/utf8_internal.cc`, and Table 3-7 of the Unicode Standard that these follow. -/

namespace Mozkey.Base

open Storage

namespace Utf8Internal

structure DecodeResult where
  codePoint : Nat
  ok : Bool
  bytesSeen : Nat
  deriving DecidableEq

def DecodeResult.continueWith (cp bytesSeen : Nat) : DecodeResult := ⟨cp, true, bytesSeen⟩

def DecodeResult.error (bytesSeen : Nat) : DecodeResult := ⟨kReplacementCharacter, false, bytesSeen⟩

def DecodeResult.sentinel : DecodeResult := ⟨0, false, 0⟩

/-- The loop of `DecodeSequence` over the third and the fourth byte. -/
def decodeTrailing : (i base : Nat) → Bytes → DecodeResult
  | i, base, [] => .continueWith base i
  | i, base, b :: bs =>
    if isUtf8TrailingByte b then decodeTrailing (i + 1) (appendTrailingByte base b) bs else .error i

def decodeSequence (needed : Nat) (mask leadingByte : UInt8) : Bytes → DecodeResult
  | [] => .error 1
  | b :: bs =>
    let isValid := if needed = 2 then isUtf8TrailingByte b else isValidSecondByte leadingByte b
    if isValid then
      decodeTrailing 2 (appendTrailingByte (leadingByte &&& mask).toNat b) (bs.take (needed - 2))
    else .error 1

def decode : Bytes → DecodeResult
  | [] => .sentinel
  | leadingByte :: bs =>
    if leadingByte < 0x80 then .continueWith leadingByte.toNat 1
    else
      let needed := oneCharLen leadingByte
      if bs.length + 1 < needed then .error (handleBufferTooShort leadingByte bs)
      else if needed = 3 then decodeSequence 3 0x0f leadingByte bs
      else if needed = 2 then decodeSequence 2 0x1f leadingByte bs
      else if needed = 4 then decodeSequence 4 0x07 leadingByte bs
      else .error 1

def encodeTrailing (cp : Nat) : Nat → Bytes
  | 0 => []
  | count + 1 => (0x80 ||| (UInt8.ofNat (cp >>> (6 * count)) &&& 0x3f)) :: encodeTrailing cp count

def encodeSequence (cp count offset : Nat) : Bytes :=
  UInt8.ofNat ((cp >>> (6 * count)) + offset) :: encodeTrailing cp count

def encode (cp : Nat) : Bytes :=
  if cp ≤ 0x7f then [UInt8.ofNat cp]
  else if cp ≤ 0x7ff then encodeSequence cp 1 0xc0
  else if cp ≤ 0xffff then encodeSequence cp 2 0xe0
  else if cp ≤ 0x10ffff then encodeSequence cp 3 0xf0
  else encodeSequence kReplacementCharacter 2 0xe0

end Utf8Internal

open Utf8Internal (DecodeResult encodeTrailing encodeSequence encode)

/-- A character: its view, the code point and whether it is well formed. -/
structure UnicodeChar where
  utf8 : Bytes
  char32 : Nat
  ok : Bool
  deriving DecidableEq

namespace UnicodeChar

def getDecodeResult (ok : Bool) (bytesSeen codepoint : Nat) : DecodeResult :=
  if ok then .continueWith codepoint bytesSeen
  else if bytesSeen ≠ 0 then .error bytesSeen
  else .sentinel

/-- The constructor of four arguments, at a pointer to some bytes. -/
def ofResult (ptr : Bytes) (ok : Bool) (bytesSeen codepoint : Nat) : UnicodeChar :=
  let dr := getDecodeResult ok bytesSeen codepoint
  ⟨ptr.take dr.bytesSeen, dr.codePoint, dr.ok⟩

def ofCodepoint (ptr : Bytes) (bytesSeen codepoint : Nat) : UnicodeChar :=
  ofResult ptr true bytesSeen codepoint

end UnicodeChar

namespace Utf8AsUnicodeChar

def deref (s : Bytes) : UnicodeChar :=
  let dr := Utf8Internal.decode s
  .ofResult s dr.ok dr.bytesSeen dr.codePoint

/-- `for (const UnicodeChar c : Utf8AsUnicodeChar(s))`, or nothing where the fuel does not last until
the iterator is at the end. -/
def charsLoop : Nat → Bytes → Option (List UnicodeChar)
  | _, [] => some []
  | 0, _ :: _ => none
  | fuel + 1, b :: s =>
    (charsLoop fuel ((b :: s).drop (Utf8Internal.decode (b :: s)).bytesSeen)).map (deref (b :: s) :: ·)

def chars (s : Bytes) : Option (List UnicodeChar) := charsLoop s.length s

/-- `back()`, with no result for the empty string and where `ABSL_UNREACHABLE` is reached. -/
def back (s : Bytes) : Option UnicodeChar :=
  match s.getLast? with
  | none => none
  | some last =>
    if last ≤ 0x7f then some (.ofCodepoint [last] 1 last.toNat)
    else
      let it (size : Nat) : Bytes := s.drop (s.length - size)
      let dr (size : Nat) : DecodeResult := Utf8Internal.decode (it size)
      ([3, 2, 4, 1].find? fun size => size ≤ s.length && (dr size).bytesSeen == size).map
        fun size => .ofCodepoint (it size) (dr size).bytesSeen (dr size).codePoint

end Utf8AsUnicodeChar

/-- Table 3-7: the ranges of the bytes of a well-formed sequence. -/
def wellFormedByteSequences : List (List (UInt8 × UInt8)) :=
  [[(0x00, 0x7f)],
    [(0xc2, 0xdf), (0x80, 0xbf)],
    [(0xe0, 0xe0), (0xa0, 0xbf), (0x80, 0xbf)],
    [(0xe1, 0xec), (0x80, 0xbf), (0x80, 0xbf)],
    [(0xed, 0xed), (0x80, 0x9f), (0x80, 0xbf)],
    [(0xee, 0xef), (0x80, 0xbf), (0x80, 0xbf)],
    [(0xf0, 0xf0), (0x90, 0xbf), (0x80, 0xbf), (0x80, 0xbf)],
    [(0xf1, 0xf3), (0x80, 0xbf), (0x80, 0xbf), (0x80, 0xbf)],
    [(0xf4, 0xf4), (0x80, 0x8f), (0x80, 0xbf), (0x80, 0xbf)]]

def InRange (range : UInt8 × UInt8) (b : UInt8) : Prop := range.1 ≤ b ∧ b ≤ range.2

instance (range : UInt8 × UInt8) (b : UInt8) : Decidable (InRange range b) :=
  inferInstanceAs (Decidable (_ ∧ _))

def WellFormed (w : Bytes) : Prop := ∃ row ∈ wellFormedByteSequences, List.Forall₂ InRange row w

def InitialPart (w : Bytes) : Prop := ∃ x, WellFormed (w ++ x)

/-- At a text that begins with no well-formed sequence, the longest of its beginnings that begins one
or is a single byte. -/
structure MaximalSubpart (s w : Bytes) : Prop where
  unconvertible : ∀ v, v <+: s → ¬ WellFormed v
  subpart : w <+: s ∧ (InitialPart w ∨ w.length = 1)
  longest : ∀ v, v <+: s → InitialPart v ∨ v.length = 1 → v.length ≤ w.length

section table

/-- The ranges of the bytes behind a leading byte. -/
def trailingRanges (b : UInt8) : Option (List (UInt8 × UInt8)) :=
  if b < 0x80 then some []
  else if oneCharLen b = 2 then some [(0x80, 0xbf)]
  else if oneCharLen b = 3 then some [secondByteBoundary b, (0x80, 0xbf)]
  else if oneCharLen b = 4 then some [secondByteBoundary b, (0x80, 0xbf), (0x80, 0xbf)]
  else none

def rowsOf (b : UInt8) : List (List (UInt8 × UInt8)) :=
  (wellFormedByteSequences.filter fun row => row.head?.any fun range => InRange range b).map List.tail

theorem byte_facts (b : UInt8) : rowsOf b = (trailingRanges b).toList ∧
    ((trailingRanges b).all fun ranges =>
      ranges.all fun range => 0x80 ≤ range.1 && range.1 ≤ range.2 && range.2 ≤ 0xbf) = true ∧
    (isUtf8TrailingByte b = true ↔ 0x80 ≤ b ∧ b ≤ 0xbf) ∧
    (trailingRanges b ≠ none → isUtf8TrailingByte b = false) := by
  revert b
  apply forall_byte
  decide +kernel

theorem rowsOf_eq (b : UInt8) : rowsOf b = (trailingRanges b).toList :=
  (byte_facts b).1

theorem range_of_trailingRanges {b : UInt8} {ranges : List (UInt8 × UInt8)}
    (h : trailingRanges b = some ranges) :
    ∀ range ∈ ranges, 0x80 ≤ range.1 ∧ range.1 ≤ range.2 ∧ range.2 ≤ 0xbf := by
  have hb := (byte_facts b).2.1
  rw [h, Option.all_some, List.all_eq_true] at hb
  intro range hrange
  simpa [and_assoc] using hb range hrange

theorem isUtf8TrailingByte_iff (b : UInt8) : isUtf8TrailingByte b = true ↔ 0x80 ≤ b ∧ b ≤ 0xbf :=
  (byte_facts b).2.2.1

theorem isUtf8TrailingByte_of_inRange {range : UInt8 × UInt8} {b : UInt8}
    (hrange : 0x80 ≤ range.1 ∧ range.1 ≤ range.2 ∧ range.2 ≤ 0xbf) (h : InRange range b) :
    isUtf8TrailingByte b = true :=
  (isUtf8TrailingByte_iff b).mpr ⟨UInt8.le_trans hrange.1 h.1, UInt8.le_trans h.2 hrange.2.2⟩

theorem not_trailing_of_trailingRanges {b : UInt8} {ranges : List (UInt8 × UInt8)}
    (h : trailingRanges b = some ranges) : isUtf8TrailingByte b = false :=
  (byte_facts b).2.2.2 (h ▸ Option.some_ne_none _)

theorem wellFormed_cons {b : UInt8} {w : Bytes} : WellFormed (b :: w) ↔
    ∃ ranges, trailingRanges b = some ranges ∧ List.Forall₂ InRange ranges w := by
  have hmem : ∀ ranges, trailingRanges b = some ranges ↔ ranges ∈ rowsOf b := fun ranges => by
    rw [rowsOf_eq, Option.mem_toList]
  constructor
  · rintro ⟨row, hrow, hbytes⟩
    cases hbytes with
    | @cons range _ ranges _ hlead hranges =>
      refine ⟨ranges, (hmem ranges).mpr ?_, hranges⟩
      exact List.mem_map.mpr ⟨range :: ranges, List.mem_filter.mpr ⟨hrow, decide_eq_true hlead⟩, rfl⟩
  · rintro ⟨ranges, hranges, hbytes⟩
    obtain ⟨row, hrow, rfl⟩ := List.mem_map.mp ((hmem ranges).mp hranges)
    obtain ⟨htable, hlead⟩ := List.mem_filter.mp hrow
    cases row with
    | nil => cases hlead
    | cons range ranges => exact ⟨range :: ranges, htable, .cons (of_decide_eq_true hlead) hbytes⟩

theorem not_wellFormed_nil : ¬ WellFormed [] := by
  rintro ⟨row, hrow, hbytes⟩
  cases hbytes
  exact absurd hrow (by decide)

end table

section decoder

def matched : List (UInt8 × UInt8) → Bytes → Nat
  | [], _ => 0
  | _ :: _, [] => 0
  | range :: ranges, b :: bs => if InRange range b then matched ranges bs + 1 else 0

theorem matched_le (ranges : List (UInt8 × UInt8)) (bs : Bytes) :
    matched ranges bs ≤ ranges.length ∧ matched ranges bs ≤ bs.length := by
  induction ranges generalizing bs with
  | nil => exact ⟨le_rfl, Nat.zero_le _⟩
  | cons range ranges ih =>
    cases bs with
    | nil => exact ⟨Nat.zero_le _, le_rfl⟩
    | cons b bs =>
      rw [matched]
      split
      · exact ⟨Nat.succ_le_succ (ih bs).1, Nat.succ_le_succ (ih bs).2⟩
      · exact ⟨Nat.zero_le _, Nat.zero_le _⟩

theorem matched_take (ranges : List (UInt8 × UInt8)) (n : Nat) (bs : Bytes) :
    matched ranges (bs.take n) = min n (matched ranges bs) := by
  induction ranges generalizing n bs with
  | nil => rw [matched, matched, Nat.min_zero]
  | cons range ranges ih =>
    cases bs with
    | nil => rw [List.take_nil, matched, Nat.min_zero]
    | cons b bs =>
      cases n with
      | zero =>
        rw [List.take_zero, Nat.zero_min]
        rfl
      | succ n =>
        rw [List.take_succ_cons, matched, matched, ih]
        split
        · rw [Nat.succ_min_succ]
        · rw [Nat.min_zero]

theorem forall₂_iff_matched {ranges : List (UInt8 × UInt8)} {bs : Bytes} :
    List.Forall₂ InRange ranges bs ↔ matched ranges bs = ranges.length ∧ bs.length = ranges.length := by
  induction ranges generalizing bs with
  | nil =>
    rw [List.forall₂_nil_left_iff, matched]
    exact ⟨fun h => ⟨rfl, congrArg List.length h⟩, fun h => List.length_eq_zero_iff.mp h.2⟩
  | cons range ranges ih =>
    cases bs with
    | nil => simp [matched]
    | cons b bs =>
      rw [List.forall₂_cons, ih, matched, List.length_cons, List.length_cons]
      split
      · rename_i hrange
        simp [hrange]
      · rename_i hrange
        simp [hrange]

theorem trailing_of_matched {ranges : List (UInt8 × UInt8)} {bs : Bytes}
    (h : ∀ range ∈ ranges, ∀ c, InRange range c → isUtf8TrailingByte c = true) :
    ∀ t ∈ bs.take (matched ranges bs), isUtf8TrailingByte t = true := by
  induction ranges generalizing bs with
  | nil => exact nofun
  | cons range ranges ih =>
    obtain ⟨hrange, hrest⟩ := List.forall_mem_cons.mp h
    cases bs with
    | nil => exact nofun
    | cons b bs =>
      rw [matched]
      split
      · rename_i hb
        rw [List.take_succ_cons]
        exact List.forall_mem_cons.mpr ⟨hrange b hb, ih hrest⟩
      · exact nofun

def leadingValue (b : UInt8) : Nat :=
  if b < 0x80 then b.toNat
  else if oneCharLen b = 2 then (b &&& 0x1f).toNat
  else if oneCharLen b = 3 then (b &&& 0x0f).toNat
  else (b &&& 0x07).toNat

theorem isValidSecondByte_eq (b c : UInt8) :
    isValidSecondByte b c = decide (InRange (secondByteBoundary b) c) := by
  rw [isValidSecondByte, Bool.eq_iff_iff, Bool.and_eq_true, decide_eq_true_eq, decide_eq_true_eq,
    decide_eq_true_eq]
  rfl

theorem isUtf8TrailingByte_eq (b : UInt8) :
    isUtf8TrailingByte b = decide (InRange (0x80, 0xbf) b) := by
  rw [Bool.eq_iff_iff, isUtf8TrailingByte_iff, decide_eq_true_eq]
  rfl

theorem oneCharLen_le (b : UInt8) : oneCharLen b ≤ 4 := by
  rw [oneCharLen]
  split_ifs <;> decide

theorem decode_none {b : UInt8} (h : trailingRanges b = none) (bs : Bytes) :
    Utf8Internal.decode (b :: bs) = .error 1 := by
  rw [trailingRanges] at h
  split at h
  · cases h
  rename_i hascii
  split at h
  · cases h
  rename_i htwo
  split at h
  · cases h
  rename_i hthree
  split at h
  · cases h
  rename_i hfour
  have hpos := oneCharLen_pos b
  have hle := oneCharLen_le b
  have hone : oneCharLen b = 1 := by omega
  rw [Utf8Internal.decode, if_neg hascii]
  simp [hone]

theorem decode_error {b : UInt8} {ranges : List (UInt8 × UInt8)} (h : trailingRanges b = some ranges)
    {bs : Bytes} (hless : matched ranges bs < ranges.length) :
    Utf8Internal.decode (b :: bs) = .error (matched ranges bs + 1) := by
  rw [trailingRanges] at h
  split at h
  · cases h
    exact absurd hless (Nat.not_lt_zero _)
  rename_i hascii
  rw [Utf8Internal.decode, if_neg hascii]
  split at h
  · rename_i hlen
    cases h
    cases bs with
    | nil => simp [hlen, handleBufferTooShort, matched]
    | cons c bs =>
      have hc : ¬ InRange (0x80, 0xbf) c := fun hc => by simp [matched, hc] at hless
      simp [hlen, Utf8Internal.decodeSequence, isUtf8TrailingByte_eq, matched, hc]
  split at h
  · rename_i hlen
    cases h
    rcases bs with _ | ⟨c, _ | ⟨d, bs⟩⟩
    · simp [hlen, handleBufferTooShort, matched]
    · by_cases hc : InRange (secondByteBoundary b) c <;>
        simp [hlen, handleBufferTooShort, matched, isValidSecondByte_eq, hc]
    · by_cases hc : InRange (secondByteBoundary b) c
      · have hd : ¬ InRange (0x80, 0xbf) d := fun hd => by simp [matched, hc, hd] at hless
        simp [hlen, Utf8Internal.decodeSequence, Utf8Internal.decodeTrailing, matched,
          isValidSecondByte_eq, isUtf8TrailingByte_eq, hc, hd]
      · simp [hlen, Utf8Internal.decodeSequence, matched, isValidSecondByte_eq, hc]
  split at h
  · rename_i hlen
    cases h
    rcases bs with _ | ⟨c, _ | ⟨d, _ | ⟨e, bs⟩⟩⟩
    · simp [hlen, handleBufferTooShort, matched]
    · by_cases hc : InRange (secondByteBoundary b) c <;>
        simp [hlen, handleBufferTooShort, matched, isValidSecondByte_eq, hc]
    · by_cases hc : InRange (secondByteBoundary b) c <;> by_cases hd : InRange (0x80, 0xbf) d <;>
        simp [hlen, handleBufferTooShort, matched, isValidSecondByte_eq, isUtf8TrailingByte_eq, hc, hd]
    · by_cases hc : InRange (secondByteBoundary b) c
      · by_cases hd : InRange (0x80, 0xbf) d
        · have he : ¬ InRange (0x80, 0xbf) e := fun he => by simp [matched, hc, hd, he] at hless
          simp [hlen, Utf8Internal.decodeSequence, Utf8Internal.decodeTrailing, matched,
            isValidSecondByte_eq, isUtf8TrailingByte_eq, hc, hd, he]
        · simp [hlen, Utf8Internal.decodeSequence, Utf8Internal.decodeTrailing, matched,
            isValidSecondByte_eq, isUtf8TrailingByte_eq, hc, hd]
      · simp [hlen, Utf8Internal.decodeSequence, matched, isValidSecondByte_eq, hc]
  · cases h

theorem decode_ok {b : UInt8} {ranges : List (UInt8 × UInt8)} (h : trailingRanges b = some ranges)
    {xs : Bytes} (hxs : List.Forall₂ InRange ranges xs) (rest : Bytes) :
    Utf8Internal.decode (b :: (xs ++ rest)) =
      .continueWith (xs.foldl appendTrailingByte (leadingValue b)) (xs.length + 1) := by
  rw [trailingRanges] at h
  split at h
  · rename_i hascii
    cases h
    cases hxs
    simp [Utf8Internal.decode, leadingValue, hascii]
  rename_i hascii
  rw [Utf8Internal.decode, if_neg hascii]
  split at h
  · rename_i hlen
    cases h
    obtain ⟨c, _, hc, hnil, rfl⟩ := List.forall₂_cons_left_iff.mp hxs
    cases hnil
    simp [hlen, Utf8Internal.decodeSequence, Utf8Internal.decodeTrailing, isUtf8TrailingByte_eq, hc,
      leadingValue, hascii]
  split at h
  · rename_i hlen
    cases h
    obtain ⟨c, _, hc, htail, rfl⟩ := List.forall₂_cons_left_iff.mp hxs
    obtain ⟨d, _, hd, hnil, rfl⟩ := List.forall₂_cons_left_iff.mp htail
    cases hnil
    simp [hlen, Utf8Internal.decodeSequence, Utf8Internal.decodeTrailing, isValidSecondByte_eq,
      isUtf8TrailingByte_eq, hc, hd, leadingValue, hascii]
  split at h
  · rename_i hlen
    cases h
    obtain ⟨c, _, hc, hcs, rfl⟩ := List.forall₂_cons_left_iff.mp hxs
    obtain ⟨d, _, hd, hds, rfl⟩ := List.forall₂_cons_left_iff.mp hcs
    obtain ⟨e, _, he, hnil, rfl⟩ := List.forall₂_cons_left_iff.mp hds
    cases hnil
    simp [hlen, Utf8Internal.decodeSequence, Utf8Internal.decodeTrailing, isValidSecondByte_eq,
      isUtf8TrailingByte_eq, hc, hd, he, leadingValue, hascii]
  · cases h

end decoder

section encoder

theorem encodeTrailing_succ (cp count : Nat) : encodeTrailing cp (count + 1) =
    UInt8.ofNat (cp / 64 ^ count % 64 + 0x80) :: encodeTrailing cp count := by
  have hall : ∀ n < 256, 0x80 ||| (UInt8.ofNat n &&& 0x3f) = UInt8.ofNat (n % 64 + 0x80) := by
    decide +kernel
  have hbyte : UInt8.ofNat (cp >>> (6 * count)) = UInt8.ofNat (cp / 64 ^ count % 256) := by
    rw [Nat.shiftRight_eq_div_pow, pow_mul, ← UInt8.toNat_inj, UInt8.toNat_ofNat',
      UInt8.toNat_ofNat', Nat.mod_mod]
    norm_num
  rw [encodeTrailing, hbyte, hall _ (Nat.mod_lt _ (by decide)),
    Nat.mod_mod_of_dvd _ (by decide : 64 ∣ 256)]

theorem appendTrailingByte_ofNat {x : Nat} (hx : x < 64) (base : Nat) :
    appendTrailingByte base (UInt8.ofNat (x + 0x80)) = base * 64 + x := by
  rw [appendTrailingByte, (trailingByte_spec x hx).2, Nat.shiftLeft_eq]

theorem exists_ofNat_of_inRange {range : UInt8 × UInt8} {c : UInt8}
    (hrange : 0x80 ≤ range.1 ∧ range.1 ≤ range.2 ∧ range.2 ≤ 0xbf) (h : InRange range c) :
    ∃ x < 64, c = UInt8.ofNat (x + 0x80) ∧ range.1.toNat ≤ x + 0x80 ∧ x + 0x80 ≤ range.2.toNat := by
  obtain ⟨x, hx, rfl⟩ := trailingByte_ofNat (isUtf8TrailingByte_of_inRange hrange h)
  have hnat : (UInt8.ofNat (x + 0x80)).toNat = x + 0x80 := by
    rw [UInt8.toNat_ofNat']
    omega
  refine ⟨x, hx, rfl, ?_, ?_⟩
  · exact hnat ▸ UInt8.le_iff_toNat_le.mp h.1
  · exact hnat ▸ UInt8.le_iff_toNat_le.mp h.2

theorem leadingByte_bits (b : UInt8) :
    (oneCharLen b = 2 → 0xc2 ≤ b.toNat ∧ b.toNat = 0xc0 + (b &&& 0x1f).toNat ∧
      (b &&& 0x1f).toNat < 0x20) ∧
    (oneCharLen b = 3 → b.toNat = 0xe0 + (b &&& 0x0f).toNat ∧ (b &&& 0x0f).toNat < 0x10 ∧
      ((b &&& 0x0f).toNat = 0 → 0xa0 ≤ (secondByteBoundary b).1.toNat)) ∧
    (oneCharLen b = 4 → b.toNat = 0xf0 + (b &&& 0x07).toNat ∧ (b &&& 0x07).toNat ≤ 4 ∧
      ((b &&& 0x07).toNat = 0 → 0x90 ≤ (secondByteBoundary b).1.toNat) ∧
      ((b &&& 0x07).toNat = 4 → (secondByteBoundary b).2.toNat ≤ 0x8f)) := by
  revert b
  apply forall_byte
  decide +kernel

theorem encode_decoded {b : UInt8} {ranges : List (UInt8 × UInt8)}
    (h : trailingRanges b = some ranges) {xs : Bytes} (hxs : List.Forall₂ InRange ranges xs) :
    encode (xs.foldl appendTrailingByte (leadingValue b)) = b :: xs := by
  have hranges := range_of_trailingRanges h
  have hbyte : ∀ n, n = b.toNat → UInt8.ofNat n = b := fun n hn => by rw [hn, UInt8.ofNat_toNat]
  obtain ⟨htwo, hthree, hfour⟩ := leadingByte_bits b
  rw [trailingRanges] at h
  rw [leadingValue]
  split at h
  · rename_i hascii
    cases h
    cases hxs
    have hle : b.toNat ≤ 0x7f := Nat.le_of_lt_succ (UInt8.lt_iff_toNat_lt.mp hascii)
    rw [if_pos hascii, List.foldl_nil, encode, if_pos hle, UInt8.ofNat_toNat]
  rename_i hascii
  rw [if_neg hascii]
  split at h
  · rename_i hlen
    cases h
    obtain ⟨c, _, hc, hnil, rfl⟩ := List.forall₂_cons_left_iff.mp hxs
    cases hnil
    obtain ⟨x, hx, rfl, -, -⟩ := exists_ofNat_of_inRange (hranges _ List.mem_cons_self) hc
    obtain ⟨hmin, hlead, hlt⟩ := htwo hlen
    rw [if_pos hlen, List.foldl_cons, List.foldl_nil, appendTrailingByte_ofNat hx, encode,
      if_neg (by omega), if_pos (by omega), encodeSequence, encodeTrailing_succ, encodeTrailing,
      Nat.shiftRight_eq_div_pow]
    refine congrArg₂ List.cons (hbyte _ (by omega)) (congrArg₂ List.cons ?_ rfl)
    exact congrArg UInt8.ofNat (by omega)
  rename_i hlenTwo
  rw [if_neg hlenTwo]
  split at h
  · rename_i hlen
    cases h
    obtain ⟨c, _, hc, hcs, rfl⟩ := List.forall₂_cons_left_iff.mp hxs
    obtain ⟨d, _, hd, hnil, rfl⟩ := List.forall₂_cons_left_iff.mp hcs
    cases hnil
    obtain ⟨hrangeC, hrest⟩ := List.forall_mem_cons.mp hranges
    obtain ⟨x, hx, rfl, hlow, -⟩ := exists_ofNat_of_inRange hrangeC hc
    obtain ⟨y, hy, rfl, -, -⟩ := exists_ofNat_of_inRange (hrest _ List.mem_cons_self) hd
    obtain ⟨hlead, hlt, hmin⟩ := hthree hlen
    rw [if_pos hlen, List.foldl_cons, List.foldl_cons, List.foldl_nil, appendTrailingByte_ofNat hx,
      appendTrailingByte_ofNat hy, encode, if_neg (by omega), if_neg (by omega), if_pos (by omega),
      encodeSequence, encodeTrailing_succ, encodeTrailing_succ, encodeTrailing,
      Nat.shiftRight_eq_div_pow]
    refine congrArg₂ List.cons (hbyte _ (by omega)) (congrArg₂ List.cons ?_
      (congrArg₂ List.cons ?_ rfl))
    · exact congrArg UInt8.ofNat (by omega)
    · exact congrArg UInt8.ofNat (by omega)
  rename_i hlenThree
  rw [if_neg hlenThree]
  split at h
  · rename_i hlen
    cases h
    obtain ⟨c, _, hc, hcs, rfl⟩ := List.forall₂_cons_left_iff.mp hxs
    obtain ⟨d, _, hd, hds, rfl⟩ := List.forall₂_cons_left_iff.mp hcs
    obtain ⟨e, _, he, hnil, rfl⟩ := List.forall₂_cons_left_iff.mp hds
    cases hnil
    obtain ⟨hrangeC, hrest⟩ := List.forall_mem_cons.mp hranges
    obtain ⟨hrangeD, hrest⟩ := List.forall_mem_cons.mp hrest
    obtain ⟨x, hx, rfl, hlow, hhigh⟩ := exists_ofNat_of_inRange hrangeC hc
    obtain ⟨y, hy, rfl, -, -⟩ := exists_ofNat_of_inRange hrangeD hd
    obtain ⟨z, hz, rfl, -, -⟩ := exists_ofNat_of_inRange (hrest _ List.mem_cons_self) he
    obtain ⟨hlead, hle, hmin, hmax⟩ := hfour hlen
    rw [List.foldl_cons, List.foldl_cons, List.foldl_cons, List.foldl_nil,
      appendTrailingByte_ofNat hx, appendTrailingByte_ofNat hy, appendTrailingByte_ofNat hz, encode,
      if_neg (by omega), if_neg (by omega), if_neg (by omega), if_pos (by omega), encodeSequence,
      encodeTrailing_succ, encodeTrailing_succ, encodeTrailing_succ, encodeTrailing,
      Nat.shiftRight_eq_div_pow]
    refine congrArg₂ List.cons (hbyte _ (by omega)) (congrArg₂ List.cons ?_
      (congrArg₂ List.cons ?_ (congrArg₂ List.cons ?_ rfl)))
    · exact congrArg UInt8.ofNat (by omega)
    · exact congrArg UInt8.ofNat (by omega)
    · exact congrArg UInt8.ofNat (by omega)
  · cases h

end encoder

section subparts

theorem forall₂_append_mins {ranges : List (UInt8 × UInt8)} (hranges : ∀ r ∈ ranges, r.1 ≤ r.2)
    {w : Bytes} (h : matched ranges w = w.length) :
    List.Forall₂ InRange ranges (w ++ (ranges.drop w.length).map Prod.fst) := by
  induction ranges generalizing w with
  | nil =>
    obtain rfl := List.length_eq_zero_iff.mp h.symm
    exact .nil
  | cons range ranges ih =>
    obtain ⟨hrange, hrest⟩ := List.forall_mem_cons.mp hranges
    cases w with
    | nil => exact .cons ⟨UInt8.le_refl _, hrange⟩ (ih hrest (w := []) (by cases ranges <;> rfl))
    | cons b w =>
      rw [matched] at h
      split at h
      · rename_i hb
        exact .cons hb (ih hrest (Nat.succ.inj h))
      · cases h

theorem initialPart_cons {b : UInt8} {w : Bytes} : InitialPart (b :: w) ↔
    ∃ ranges, trailingRanges b = some ranges ∧ matched ranges w = w.length := by
  constructor
  · rintro ⟨x, hx⟩
    rw [List.cons_append] at hx
    obtain ⟨ranges, hranges, hbytes⟩ := wellFormed_cons.mp hx
    obtain ⟨hmatched, hlength⟩ := forall₂_iff_matched.mp hbytes
    have htake := matched_take ranges w.length (w ++ x)
    rw [List.take_left, hmatched, ← hlength, List.length_append] at htake
    exact ⟨ranges, hranges, htake.trans (Nat.min_eq_left (Nat.le_add_right _ _))⟩
  · rintro ⟨ranges, hranges, hmatched⟩
    have hmins : ∀ r ∈ ranges, r.1 ≤ r.2 := fun r hr => (range_of_trailingRanges hranges r hr).2.1
    exact ⟨_, wellFormed_cons.mpr ⟨ranges, hranges, forall₂_append_mins hmins hmatched⟩⟩

theorem prefix_cons_cases {b : UInt8} {bs v : Bytes} (h : v <+: b :: bs) :
    v = [] ∨ ∃ n ≤ bs.length, v = b :: bs.take n := by
  rcases List.prefix_cons_iff.mp h with rfl | ⟨v', rfl, hv'⟩
  · exact .inl rfl
  · refine .inr ⟨v'.length, hv'.length_le, ?_⟩
    rw [← List.prefix_iff_eq_take.mp hv']

theorem maximalSubpart_none {b : UInt8} (h : trailingRanges b = none) (bs : Bytes) :
    MaximalSubpart (b :: bs) [b] where
  unconvertible v hv := by
    rcases prefix_cons_cases hv with rfl | ⟨n, -, rfl⟩
    · exact not_wellFormed_nil
    · rw [wellFormed_cons]
      rintro ⟨ranges, hranges, -⟩
      exact nomatch h.symm.trans hranges
  subpart := ⟨⟨bs, rfl⟩, .inr rfl⟩
  longest v hv hpart := by
    rcases prefix_cons_cases hv with rfl | ⟨n, -, rfl⟩
    · exact Nat.zero_le _
    · rcases hpart with hinitial | hone
      · obtain ⟨ranges, hranges, -⟩ := initialPart_cons.mp hinitial
        exact nomatch h.symm.trans hranges
      · exact hone.le

theorem maximalSubpart_matched {b : UInt8} {ranges : List (UInt8 × UInt8)}
    (h : trailingRanges b = some ranges) {bs : Bytes} (hless : matched ranges bs < ranges.length) :
    MaximalSubpart (b :: bs) (b :: bs.take (matched ranges bs)) where
  unconvertible v hv := by
    rcases prefix_cons_cases hv with rfl | ⟨n, -, rfl⟩
    · exact not_wellFormed_nil
    · rw [wellFormed_cons]
      rintro ⟨ranges', hranges', hbytes⟩
      obtain rfl := Option.some.inj (h.symm.trans hranges')
      have hmatched := (forall₂_iff_matched.mp hbytes).1
      rw [matched_take] at hmatched
      omega
  subpart := by
    refine ⟨⟨bs.drop (matched ranges bs), ?_⟩, .inl (initialPart_cons.mpr ⟨ranges, h, ?_⟩)⟩
    · rw [List.cons_append, List.take_append_drop]
    · rw [matched_take, Nat.min_self, List.length_take, Nat.min_eq_left (matched_le ranges bs).2]
  longest v hv hpart := by
    have hlength : (b :: bs.take (matched ranges bs)).length = matched ranges bs + 1 := by
      rw [List.length_cons, List.length_take, Nat.min_eq_left (matched_le ranges bs).2]
    rw [hlength]
    rcases prefix_cons_cases hv with rfl | ⟨n, hn, rfl⟩
    · exact Nat.zero_le _
    · rcases hpart with hinitial | hone
      · obtain ⟨ranges', hranges', hmatched⟩ := initialPart_cons.mp hinitial
        obtain rfl := Option.some.inj (h.symm.trans hranges')
        rw [matched_take, List.length_take] at hmatched
        rw [List.length_cons, List.length_take]
        omega
      · rw [hone]
        exact Nat.succ_le_succ (Nat.zero_le _)

end subparts

namespace Utf8AsUnicodeChar

section iteration

/-- A character of the iteration: its view `w` at the beginning of `w ++ rest`. -/
structure CharAt (w rest : Bytes) (c : UnicodeChar) : Prop where
  nonempty : w ≠ []
  short : w.length ≤ 4
  trailing : ∀ t ∈ w.tail, isUtf8TrailingByte t = true
  seen : (Utf8Internal.decode (w ++ rest)).bytesSeen = w.length
  char : deref (w ++ rest) = c
  view : c.utf8 = w
  codePoint : c.char32 = (Utf8Internal.decode (w ++ rest)).codePoint
  wellFormed : c.ok = true → WellFormed w ∧ encode c.char32 = w
  illFormed : c.ok = false → c.char32 = kReplacementCharacter ∧ MaximalSubpart (w ++ rest) w

theorem length_ranges_le {b : UInt8} {ranges : List (UInt8 × UInt8)}
    (h : trailingRanges b = some ranges) : ranges.length ≤ 3 := by
  rw [trailingRanges] at h
  repeat' split at h
  all_goals cases h
  all_goals simp

theorem charAt_of_error {w rest : Bytes} (hpos : w ≠ []) (hshort : w.length ≤ 4)
    (htrailing : ∀ t ∈ w.tail, isUtf8TrailingByte t = true)
    (h : Utf8Internal.decode (w ++ rest) = .error w.length) (hpart : MaximalSubpart (w ++ rest) w) :
    CharAt w rest ⟨w, kReplacementCharacter, false⟩ := by
  have hlength : w.length ≠ 0 := fun hzero => hpos (List.length_eq_zero_iff.mp hzero)
  have hderef : deref (w ++ rest) = ⟨w, kReplacementCharacter, false⟩ := by
    rw [deref, h]
    simp [DecodeResult.error, UnicodeChar.ofResult, UnicodeChar.getDecodeResult, hlength]
  exact ⟨hpos, hshort, htrailing, by rw [h]; rfl, hderef, rfl, by rw [h]; rfl, nofun,
    fun _ => ⟨rfl, hpart⟩⟩

theorem exists_charAt (b : UInt8) (bs : Bytes) :
    ∃ w rest c, b :: bs = w ++ rest ∧ CharAt w rest c := by
  cases hranges : trailingRanges b with
  | none =>
    exact ⟨[b], bs, _, rfl, charAt_of_error (List.cons_ne_nil _ _) (by simp) nofun
      (decode_none hranges bs) (maximalSubpart_none hranges bs)⟩
  | some ranges =>
    have htrailing := fun range hrange c => @isUtf8TrailingByte_of_inRange range c
      (range_of_trailingRanges hranges range hrange)
    have hthree := length_ranges_le hranges
    obtain ⟨hle, hleBytes⟩ := matched_le ranges bs
    rcases Nat.lt_or_eq_of_le hle with hless | hall
    · have hw : b :: bs = (b :: bs.take (matched ranges bs)) ++ bs.drop (matched ranges bs) := by
        rw [List.cons_append, List.take_append_drop]
      have hlength : (b :: bs.take (matched ranges bs)).length = matched ranges bs + 1 := by
        rw [List.length_cons, List.length_take, Nat.min_eq_left hleBytes]
      refine ⟨_, _, _, hw, charAt_of_error (List.cons_ne_nil _ _) (by omega) ?_ ?_ ?_⟩
      · exact fun t ht => trailing_of_matched htrailing t ht
      · rw [← hw, hlength]
        exact decode_error hranges hless
      · rw [← hw]
        exact maximalSubpart_matched hranges hless
    · have hlength : (bs.take ranges.length).length = ranges.length := by
        rw [List.length_take, Nat.min_eq_left (hall ▸ hleBytes)]
      have hxs : List.Forall₂ InRange ranges (bs.take ranges.length) := by
        rw [forall₂_iff_matched, matched_take, hall, Nat.min_self]
        exact ⟨rfl, hlength⟩
      have hdecode := decode_ok hranges hxs (bs.drop ranges.length)
      have hw : b :: bs = (b :: bs.take ranges.length) ++ bs.drop ranges.length := by
        rw [List.cons_append, List.take_append_drop]
      rw [← List.cons_append, hlength] at hdecode
      refine ⟨b :: bs.take ranges.length, bs.drop ranges.length, ⟨b :: bs.take ranges.length,
        (bs.take ranges.length).foldl appendTrailingByte (leadingValue b), true⟩, hw, ?_⟩
      refine ⟨List.cons_ne_nil _ _, ?_, ?_, ?_, ?_, rfl, ?_, fun _ => ⟨?_, encode_decoded hranges hxs⟩,
        nofun⟩
      · rw [List.length_cons, hlength]
        omega
      · intro t ht
        rw [← hall] at ht
        exact trailing_of_matched htrailing t ht
      · rw [hdecode, List.length_cons, hlength]
        rfl
      · have hseen : (b :: bs.take ranges.length).length = ranges.length + 1 := by
          rw [List.length_cons, hlength]
        rw [deref, hdecode]
        simp only [DecodeResult.continueWith, UnicodeChar.ofResult, UnicodeChar.getDecodeResult,
          if_true]
        rw [← hseen, List.take_left]
      · rw [hdecode]
        rfl
      · exact wellFormed_cons.mpr ⟨ranges, hranges, hxs⟩

inductive Iterates : Bytes → List UnicodeChar → Prop
  | nil : Iterates [] []
  | cons {w rest : Bytes} {c : UnicodeChar} {cs : List UnicodeChar} (char : CharAt w rest c)
      (tail : Iterates rest cs) : Iterates (w ++ rest) (c :: cs)

theorem iterates_charsLoop {fuel : Nat} {s : Bytes} (h : s.length ≤ fuel) :
    ∃ cs, charsLoop fuel s = some cs ∧ Iterates s cs := by
  induction fuel generalizing s with
  | zero =>
    obtain rfl := List.length_eq_zero_iff.mp (Nat.le_zero.mp h)
    exact ⟨[], rfl, .nil⟩
  | succ fuel ih =>
    cases s with
    | nil => exact ⟨[], rfl, .nil⟩
    | cons b s =>
      obtain ⟨w, rest, c, hs, hchar⟩ := exists_charAt b s
      have hpos := List.length_pos_iff.mpr hchar.nonempty
      have hlength := congrArg List.length hs
      rw [List.length_append, List.length_cons] at hlength
      rw [List.length_cons] at h
      obtain ⟨cs, hcs, hiterates⟩ := ih (s := rest) (by omega)
      refine ⟨c :: cs, ?_, hs ▸ .cons hchar hiterates⟩
      rw [charsLoop, hs, hchar.seen, List.drop_left, hcs, hchar.char]
      rfl

variable {s : Bytes} {cs : List UnicodeChar}

theorem Iterates.flatMap_utf8 (h : Iterates s cs) : cs.flatMap UnicodeChar.utf8 = s := by
  induction h with
  | nil => rfl
  | cons hchar _ ih => rw [List.flatMap_cons, ih, hchar.view]

theorem Iterates.charAt (h : Iterates s cs) {cs₁ cs₂ : List UnicodeChar} {c : UnicodeChar}
    (hcs : cs = cs₁ ++ c :: cs₂) : CharAt c.utf8 (cs₂.flatMap UnicodeChar.utf8) c := by
  induction h generalizing cs₁ with
  | nil => exact absurd hcs.symm (List.append_ne_nil_of_right_ne_nil _ (List.cons_ne_nil _ _))
  | @cons w rest d ds hchar htail ih =>
    cases cs₁ with
    | nil =>
      obtain ⟨rfl, rfl⟩ := List.cons.inj hcs
      rw [htail.flatMap_utf8, hchar.view]
      exact hchar
    | cons _ cs₁ => exact ih (List.cons.inj hcs).2

theorem Iterates.split (h : Iterates s cs) {p ws : Bytes} {b : UInt8} (hs : s = p ++ b :: ws)
    (hb : isUtf8TrailingByte b = false) : ∃ cs₁ cs₂, cs = cs₁ ++ cs₂ ∧ Iterates (b :: ws) cs₂ := by
  induction h generalizing p with
  | nil => exact absurd hs.symm (List.append_ne_nil_of_right_ne_nil _ (List.cons_ne_nil _ _))
  | @cons w rest c cs hchar htail ih =>
    cases p with
    | nil =>
      refine ⟨[], c :: cs, rfl, ?_⟩
      rw [List.nil_append] at hs
      exact hs ▸ .cons hchar htail
    | cons d p =>
      rcases List.append_eq_append_iff.mp hs with ⟨p', hp, hrest⟩ | ⟨w', hw, hrest⟩
      · obtain ⟨cs₁, cs₂, rfl, hiterates⟩ := ih hrest
        exact ⟨c :: cs₁, cs₂, rfl, hiterates⟩
      · cases w' with
        | nil =>
          obtain ⟨cs₁, cs₂, rfl, hiterates⟩ := ih (p := []) hrest.symm
          exact ⟨c :: cs₁, cs₂, rfl, hiterates⟩
        | cons e w' =>
          -- The byte is in the character of `d`, behind its first byte.
          obtain ⟨rfl, -⟩ := List.cons.inj hrest
          have hmem : b ∈ w.tail := by
            rw [hw]
            exact List.mem_append_right _ List.mem_cons_self
          rw [hchar.trailing b hmem] at hb
          cases hb

end iteration

section back

variable {s w : Bytes} {cs : List UnicodeChar} {c : UnicodeChar}

theorem not_trailing_of_bytesSeen {b : UInt8} {bs : Bytes}
    (h : 1 < (Utf8Internal.decode (b :: bs)).bytesSeen) : isUtf8TrailingByte b = false := by
  cases hranges : trailingRanges b with
  | none =>
    rw [decode_none hranges] at h
    exact absurd h (Nat.lt_irrefl 1)
  | some ranges => exact not_trailing_of_trailingRanges hranges

theorem Iterates.eq_nil (h : Iterates s cs) (hs : s = []) : cs = [] := by
  cases h with
  | nil => rfl
  | cons hchar _ => exact absurd hs (List.append_ne_nil_of_left_ne_nil hchar.nonempty _)

theorem Iterates.eq_singleton (h : Iterates w cs) (hw : w ≠ [])
    (hseen : (Utf8Internal.decode w).bytesSeen = w.length) :
    ∃ c, cs = [c] ∧ CharAt w [] c := by
  cases h with
  | nil => exact absurd rfl hw
  | @cons v rest c cs hchar htail =>
    have hlength := hchar.seen
    rw [hseen, List.length_append] at hlength
    obtain rfl : rest = [] := List.length_eq_zero_iff.mp (by omega)
    rw [htail.eq_nil rfl, List.append_nil]
    exact ⟨c, rfl, hchar⟩

theorem Iterates.getLast_of_suffix (h : Iterates s cs) {b : UInt8} {ws : Bytes}
    (hsuffix : b :: ws <:+ s) (hb : isUtf8TrailingByte b = false)
    (hseen : (Utf8Internal.decode (b :: ws)).bytesSeen = (b :: ws).length) :
    ∃ c, cs.getLast? = some c ∧ CharAt (b :: ws) [] c := by
  obtain ⟨p, hs⟩ := hsuffix
  obtain ⟨cs₁, cs₂, rfl, hiterates⟩ := h.split hs.symm hb
  obtain ⟨c, rfl, hchar⟩ := hiterates.eq_singleton (List.cons_ne_nil _ _) hseen
  exact ⟨c, List.getLast?_concat, hchar⟩

theorem Iterates.charAt_last (h : Iterates s (cs ++ [c])) :
    CharAt c.utf8 [] c ∧ s = cs.flatMap UnicodeChar.utf8 ++ c.utf8 := by
  have hs := h.flatMap_utf8
  rw [List.flatMap_append, List.flatMap_singleton] at hs
  exact ⟨h.charAt rfl, hs.symm⟩

theorem Iterates.matches_iff (h : Iterates s (cs ++ [c])) {size : Nat} (hsize : 1 < size) :
    (size ≤ s.length && (Utf8Internal.decode (s.drop (s.length - size))).bytesSeen == size) =
      decide (size = c.utf8.length) := by
  obtain ⟨hchar, hs⟩ := h.charAt_last
  have hseen := hchar.seen
  rw [List.append_nil] at hseen
  rw [Bool.eq_iff_iff, Bool.and_eq_true, decide_eq_true_eq, beq_iff_eq, decide_eq_true_eq]
  constructor
  · rintro ⟨hle, hsees⟩
    have hlength : (s.drop (s.length - size)).length = size := by
      rw [List.length_drop]
      omega
    have hsuffix := List.drop_suffix (s.length - size) s
    cases hw : s.drop (s.length - size) with
    | nil =>
      rw [hw, List.length_nil] at hlength
      omega
    | cons b ws =>
      rw [hw] at hsees hlength hsuffix
      obtain ⟨d, hlast, hd⟩ := h.getLast_of_suffix hsuffix
        (not_trailing_of_bytesSeen (hsees ▸ hsize)) (hsees.trans hlength.symm)
      rw [List.getLast?_concat] at hlast
      rw [Option.some.inj hlast, hd.view, hlength]
  · rintro rfl
    have hdrop : s.drop (s.length - c.utf8.length) = c.utf8 := by
      rw [hs, List.length_append, Nat.add_sub_cancel, List.drop_left]
    rw [hdrop]
    refine ⟨?_, hseen⟩
    rw [hs, List.length_append]
    exact Nat.le_add_left _ _

theorem bytesSeen_singleton (b : UInt8) : (Utf8Internal.decode [b]).bytesSeen = 1 := by
  revert b
  apply forall_byte
  decide +kernel

theorem back_eq (h : Iterates s (cs ++ [c])) : back s = some ⟨c.utf8, c.char32, true⟩ := by
  obtain ⟨hchar, hs⟩ := h.charAt_last
  have hcodePoint := hchar.codePoint
  have hseen := hchar.seen
  rw [List.append_nil] at hcodePoint hseen
  obtain ⟨last, hlast⟩ : ∃ last, c.utf8.getLast? = some last :=
    ⟨_, List.getLast?_eq_some_getLast hchar.nonempty⟩
  have hlastS : s.getLast? = some last := by
    rw [hs, List.getLast?_append, hlast, Option.some_or]
  have hview : c.utf8 = c.utf8.dropLast ++ [last] := by
    conv_lhs => rw [← List.dropLast_append_getLast? last hlast]
  rw [back, hlastS]
  dsimp only
  split
  · rename_i hascii
    have htrailing : isUtf8TrailingByte last = false := isUtf8TrailingByte_of_ascii (by
      rw [UInt8.lt_iff_toNat_lt]
      exact Nat.lt_succ_of_le (UInt8.le_iff_toNat_le.mp hascii))
    have hnil : c.utf8.dropLast = [] := by
      by_contra hne
      have hmem : last ∈ c.utf8.tail := by
        rw [hview, List.tail_append_of_ne_nil hne]
        exact List.mem_append_right _ (List.mem_singleton_self _)
      rw [hchar.trailing last hmem] at htrailing
      cases htrailing
    rw [hnil, List.nil_append] at hview
    rw [hview] at hcodePoint
    have hlt : last < 0x80 := by
      rw [UInt8.lt_iff_toNat_lt]
      exact Nat.lt_succ_of_le (UInt8.le_iff_toNat_le.mp hascii)
    rw [Utf8Internal.decode, if_pos hlt] at hcodePoint
    rw [hview, hcodePoint]
    rfl
  · have hdrop : s.drop (s.length - c.utf8.length) = c.utf8 := by
      rw [hs, List.length_append, Nat.add_sub_cancel, List.drop_left]
    have hpos := List.length_pos_iff.mpr hchar.nonempty
    have hshort := hchar.short
    have hone : 1 ≤ s.length ∧ (Utf8Internal.decode (s.drop (s.length - 1))).bytesSeen = 1 := by
      have hle : 1 ≤ s.length := by
        rw [hs, List.length_append]
        omega
      have hsuffix : s.drop (s.length - 1) = [last] := by
        rw [List.drop_length_sub_one (List.length_pos_iff.mp hle)]
        exact congrArg (fun b => [b]) (List.getLast_of_getLast?_eq_some hlastS)
      exact ⟨hle, hsuffix ▸ bytesSeen_singleton last⟩
    have hfind : ([3, 2, 4, 1].find? fun size => decide (size ≤ s.length) &&
        (Utf8Internal.decode (s.drop (s.length - size))).bytesSeen == size) =
          some c.utf8.length := by
      simp only [List.find?_cons, h.matches_iff (by decide : 1 < 3), h.matches_iff (by decide : 1 < 2),
        h.matches_iff (by decide : 1 < 4), hone.1, hone.2, decide_true, beq_self_eq_true,
        Bool.and_self]
      by_cases h3 : 3 = c.utf8.length
      · simp [h3]
      by_cases h2 : 2 = c.utf8.length
      · simp [h2, h3]
      by_cases h4 : 4 = c.utf8.length
      · simp [h4, h3, h2]
      · simp [h3, h2, h4]
        omega
    rw [hfind, Option.map_some, hdrop, hseen, ← hcodePoint]
    simp [UnicodeChar.ofCodepoint, UnicodeChar.ofResult, UnicodeChar.getDecodeResult,
      DecodeResult.continueWith]

end back

/-- What the iteration over a text is to be: the views make up the text, the well-formed ones are those
that are reported so and are encoded again, the others are maximal subparts, and `back` is the last
character. -/
def IteratesWell (s : Bytes) : Prop :=
  ∃ cs, chars s = some cs ∧ (∀ c ∈ cs, c.utf8 ≠ []) ∧ cs.flatMap UnicodeChar.utf8 = s ∧
    (∀ c ∈ cs, (c.ok = true ↔ WellFormed c.utf8) ∧ (c.ok = true → encode c.char32 = c.utf8)) ∧
    (∀ cs₁ c cs₂, cs = cs₁ ++ c :: cs₂ → c.ok = false →
      c.char32 = kReplacementCharacter ∧
        MaximalSubpart (c.utf8 ++ cs₂.flatMap UnicodeChar.utf8) c.utf8) ∧
    (s ≠ [] → back s = cs.getLast?)

theorem CharAt.ok_iff {w rest : Bytes} {c : UnicodeChar} (h : CharAt w rest c) :
    c.ok = true ↔ WellFormed w := by
  refine ⟨fun hok => (h.wellFormed hok).1, fun hwell => ?_⟩
  by_contra hnot
  exact (h.illFormed (Bool.not_eq_true _ ▸ hnot)).2.unconvertible w ⟨rest, rfl⟩ hwell

/-- All is as it is to be but for `back`, which is so exactly if the text ends with a well-formed
sequence. -/
theorem iteratesWell_iff (s : Bytes) :
    IteratesWell s ↔ (s ≠ [] → ∃ w, w <:+ s ∧ WellFormed w) := by
  obtain ⟨cs, hcs, hiterates⟩ := iterates_charsLoop (le_refl s.length)
  have hmem : ∀ c ∈ cs, ∃ rest, CharAt c.utf8 rest c := fun c hc => by
    obtain ⟨cs₁, cs₂, hsplit⟩ := List.append_of_mem hc
    exact ⟨_, hiterates.charAt hsplit⟩
  have hback : (s ≠ [] → back s = cs.getLast?) ↔ (s ≠ [] → ∃ w, w <:+ s ∧ WellFormed w) := by
    refine forall_congr' fun hs => ?_
    rcases List.eq_nil_or_concat cs with rfl | ⟨cs', c, rfl⟩
    · exact absurd hiterates.flatMap_utf8.symm hs
    rw [List.concat_eq_append] at hiterates ⊢
    obtain ⟨hchar, htext⟩ := hiterates.charAt_last
    rw [back_eq hiterates, List.getLast?_concat]
    have hsame : some (⟨c.utf8, c.char32, true⟩ : UnicodeChar) = some c ↔ c.ok = true := by
      rw [Option.some.injEq]
      exact ⟨fun h => h ▸ rfl, fun h => h ▸ rfl⟩
    rw [hsame]
    constructor
    · exact fun hok => ⟨c.utf8, ⟨_, htext.symm⟩, hchar.ok_iff.mp hok⟩
    · rintro ⟨w, hsuffix, hwell⟩
      cases w with
      | nil => exact absurd hwell not_wellFormed_nil
      | cons b ws =>
        obtain ⟨ranges, hranges, hbytes⟩ := wellFormed_cons.mp hwell
        have hdecode := decode_ok hranges hbytes []
        rw [List.append_nil] at hdecode
        obtain ⟨d, hlast, hd⟩ := hiterates.getLast_of_suffix hsuffix
          (not_trailing_of_trailingRanges hranges) (by rw [hdecode]; rfl)
        rw [List.getLast?_concat] at hlast
        rw [Option.some.inj hlast]
        exact hd.ok_iff.mpr hwell
  rw [← hback]
  constructor
  · rintro ⟨cs', hcs', -, -, -, -, hlast⟩
    rw [chars] at hcs'
    rw [Option.some.inj (hcs.symm.trans hcs')]
    exact hlast
  · intro hlast
    refine ⟨cs, hcs, fun c hc => ?_, hiterates.flatMap_utf8, fun c hc => ?_, ?_, hlast⟩
    · exact (hmem c hc).choose_spec.nonempty
    · obtain ⟨rest, hchar⟩ := hmem c hc
      exact ⟨hchar.ok_iff, fun hok => (hchar.wellFormed hok).2⟩
    · exact fun cs₁ c cs₂ hsplit hok => (hiterates.charAt hsplit).illFormed hok

/-- A character that is cut off: the iteration reports it, `back` takes it for well formed. -/
theorem not_iteratesWell_truncated :
    chars [0x61, 0xe3, 0x81] = some [⟨[0x61], 0x61, true⟩, ⟨[0xe3, 0x81], 0xfffd, false⟩] ∧
      back [0x61, 0xe3, 0x81] = some ⟨[0xe3, 0x81], 0xfffd, true⟩ ∧
        ¬ IteratesWell [0x61, 0xe3, 0x81] := by
  have hchars : chars [0x61, 0xe3, 0x81] =
      some [⟨[0x61], 0x61, true⟩, ⟨[0xe3, 0x81], 0xfffd, false⟩] := by decide
  refine ⟨hchars, by decide, ?_⟩
  rintro ⟨cs, hcs, -, -, -, -, hback⟩
  rw [hchars] at hcs
  obtain rfl := Option.some.inj hcs
  exact absurd (hback (by decide)) (by decide)

end Utf8AsUnicodeChar

end Mozkey.Base
