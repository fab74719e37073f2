import Mozkey.Base.SubString
import Mozkey.Session.ZenzFeedbackStore
import Mozkey.Session.ZenzPromptCorrect

/-! `ZenzOutputValidator` of `session/zenz_output_validator.cc`: which values `Validate` accepts, and
what the prompt builder makes of them. -/

namespace Mozkey.Session

open Storage Base ZenzPromptBuilder ZenzFeedbackStore

namespace ZenzOutputValidator

structure ZenzValidationInput where
  key : Bytes
  mozcValue : Bytes
  zenzValue : Bytes
  minKeyLength : Nat := 5
  allowSyntheticCandidate : Bool := true

structure ZenzValidationResult where
  accept : Bool := false
  synthetic : Bool := false
  reason : Bytes
  deriving DecidableEq

def accept (synthetic : Bool) (reason : String) : ZenzValidationResult where
  accept := true
  synthetic := synthetic
  reason := str reason

def reject (reason : String) : ZenzValidationResult where
  reason := str reason

/-- `DecodeOneUtf8` of the validator, which has the text of the one of the prompt builder. -/
def decodeOneUtf8 (input : Bytes) : Option (Nat × Bytes) := ZenzPromptBuilder.decodeOneUtf8 input

def strContains (text : Bytes) (s : String) : Bool := decide (str s <:+: text)

def containsMarkerLoop : Nat → Bytes → Bool
  | _, [] => false
  | 0, _ :: _ => false
  | fuel + 1, b :: s =>
    match decodeOneUtf8 (b :: s) with
    | none => true
    | some (cp, rest) => if 0xee00 ≤ cp ∧ cp ≤ 0xee06 then true else containsMarkerLoop fuel rest

def containsSpecialToken (text : Bytes) : Bool :=
  if strContains text "<s>" || strContains text "</s>" || strContains text "<unk>" ||
      strContains text "<|endoftext|>" then true
  else containsMarkerLoop text.length text

def looksLikeUrlOrEmail (text : Bytes) : Bool :=
  strContains text "://" || strContains text "www." || strContains text "@"

def isSecretChar (c : UInt8) : Bool :=
  (0x61 ≤ c && c ≤ 0x7a) || (0x41 ≤ c && c ≤ 0x5a) || (0x30 ≤ c && c ≤ 0x39) || c == 0x5f ||
    c == 0x2d || c == 0x2e

def looksLikeSecret (text : Bytes) : Bool :=
  if 32 ≤ text.length ∧ 80 ≤ text.countP isSecretChar * 100 / text.length then true
  else
    strContains text "password" || strContains text "passwd" || strContains text "secret" ||
      strContains text "token" || strContains text "api_key" || strContains text "apikey"

def validate (input : ZenzValidationInput) : ZenzValidationResult :=
  if input.key = [] then reject "empty_key"
  else if input.zenzValue = [] then reject "empty_value"
  else if input.zenzValue = input.mozcValue then reject "same_as_mozc"
  else if charsLen input.key < input.minKeyLength then reject "too_short_key"
  else if containsSpecialToken input.zenzValue then reject "special_token"
  else if ¬ isValidUtf8 input.zenzValue then reject "invalid_utf8"
  else
    let keyLen := charsLen input.key
    let valueLen := charsLen input.zenzValue
    if valueLen = 0 then reject "zero_value_len"
    else if keyLen * 3 + 8 < valueLen then reject "too_long_value"
    else if looksLikeUrlOrEmail input.zenzValue then reject "url_or_email"
    else if looksLikeSecret input.zenzValue then reject "secret_like"
    else if ¬ input.allowSyntheticCandidate then reject "synthetic_disabled"
    else accept true "accepted_synthetic"

/-- What `SanitizeConditionText` makes of a code point that is no control marker. -/
def keptText (cp : Nat) : Bytes :=
  if isUnsafeControlCodepoint cp then
    if cp = 0x09 ∨ cp = 0x0a ∨ cp = 0x0d then [0x20] else []
  else appendUtf8 cp

/-- A value that may come back as a left context: valid UTF-8, not too long for the key, and without
code points that are reserved as markers, so that the sanitiser drops none of it for being one. -/
structure AcceptedText (key value : Bytes) : Prop where
  valid : isValidUtf8 value = true
  length : (decodePrefix value).1.length ≤ 3 * charsLen key + 8
  noControl : ∀ cp ∈ (decodePrefix value).1, isZenzControlCodepoint cp = false
  sanitized : sanitizeConditionText value 0 = (decodePrefix value).1.flatMap keptText

theorem byte_forms : ∀ x < 256,
    (UInt8.ofNat x &&& 0xc0 = 0x80 → oneCharLen (UInt8.ofNat x) = 1 ∧
      UInt8.ofNat (0x80 ||| (UInt8.ofNat x &&& 0x3f).toNat) = UInt8.ofNat x) ∧
    (UInt8.ofNat x &&& 0xe0 = 0xc0 → (oneCharLen (UInt8.ofNat x) = 2 ∨ oneCharLen (UInt8.ofNat x) = 1) ∧
      UInt8.ofNat (0xc0 ||| (UInt8.ofNat x &&& 0x1f).toNat) = UInt8.ofNat x) ∧
    (UInt8.ofNat x &&& 0xf0 = 0xe0 → oneCharLen (UInt8.ofNat x) = 3 ∧
      UInt8.ofNat (0xe0 ||| (UInt8.ofNat x &&& 0x0f).toNat) = UInt8.ofNat x) ∧
    (UInt8.ofNat x &&& 0xf8 = 0xf0 → (oneCharLen (UInt8.ofNat x) = 4 ∨ oneCharLen (UInt8.ofNat x) = 1) ∧
      UInt8.ofNat (0xf0 ||| (UInt8.ofNat x &&& 0x07).toNat) = UInt8.ofNat x) := by
  decide +kernel

theorem byte_form (c : UInt8) :
    (c &&& 0xc0 = 0x80 → oneCharLen c = 1 ∧ UInt8.ofNat (0x80 ||| (c &&& 0x3f).toNat) = c) ∧
    (c &&& 0xe0 = 0xc0 → (oneCharLen c = 2 ∨ oneCharLen c = 1) ∧
      UInt8.ofNat (0xc0 ||| (c &&& 0x1f).toNat) = c) ∧
    (c &&& 0xf0 = 0xe0 → oneCharLen c = 3 ∧ UInt8.ofNat (0xe0 ||| (c &&& 0x0f).toNat) = c) ∧
    (c &&& 0xf8 = 0xf0 → (oneCharLen c = 4 ∨ oneCharLen c = 1) ∧
      UInt8.ofNat (0xf0 ||| (c &&& 0x07).toNat) = c) := by
  have h := byte_forms c.toNat c.toNat_lt
  rwa [UInt8.ofNat_toNat] at h

theorem charsLen_ascii {c : UInt8} (h : c < 0x80) (s : Bytes) : charsLen (c :: s) = charsLen s + 1 := by
  have hlen : oneCharLen c = 1 := by
    rw [oneCharLen, if_pos]
    rw [UInt8.lt_iff_toNat_lt] at h ⊢
    exact Nat.lt_trans h (by decide)
  rw [charsLen_cons, hlen, List.drop_succ_cons, List.drop_zero]

theorem charsLen_trailing {c : UInt8} (h : c &&& 0xc0 = 0x80) (s : Bytes) :
    charsLen (c :: s) = charsLen s + 1 := by
  rw [charsLen_cons, ((byte_form c).1 h).1, List.drop_succ_cons, List.drop_zero]

theorem charsLen_of_decode {s rest : Bytes} {cp : Nat}
    (h : ZenzPromptBuilder.decodeOneUtf8 s = some (cp, rest)) : charsLen rest + 1 ≤ charsLen s := by
  rcases decodeOneUtf8_cases h with ⟨c0, rfl, hascii, -⟩ | ⟨c0, c1, rfl, -, htwo, h1, -⟩ |
    ⟨c0, c1, c2, rfl, -, -, hthree, -⟩ | ⟨c0, c1, c2, c3, rfl, -, -, -, hfour, h1, h2, h3, -⟩
  · rw [charsLen_ascii hascii]
  · rcases ((byte_form c0).2.1 htwo).1 with hlen | hlen
    · rw [charsLen_cons, hlen]
      simp
    · rw [charsLen_cons, hlen, List.drop_succ_cons, List.drop_zero, charsLen_trailing h1]
      omega
  · rw [charsLen_cons, ((byte_form c0).2.2.1 hthree).1]
    simp
  · rcases ((byte_form c0).2.2.2 hfour).1 with hlen | hlen
    · rw [charsLen_cons, hlen]
      simp
    · rw [charsLen_cons, hlen, List.drop_succ_cons, List.drop_zero, charsLen_trailing h1,
        charsLen_trailing h2, charsLen_trailing h3]
      omega

theorem length_decodePrefixLoop (fuel : Nat) (s : Bytes) :
    (decodePrefixLoop fuel s).1.length ≤ charsLen s := by
  induction fuel generalizing s with
  | zero => exact Nat.zero_le _
  | succ fuel ih =>
    rw [decodePrefixLoop]
    rcases hdecode : ZenzPromptBuilder.decodeOneUtf8 s with _ | ⟨cp, rest⟩
    · exact Nat.zero_le _
    · have hrest := ih rest
      have hlen := charsLen_of_decode hdecode
      dsimp only
      rw [List.length_cons]
      omega

theorem decodePrefixLoop_of_containsMarkerLoop {fuel : Nat} {s : Bytes} (hfuel : s.length ≤ fuel)
    (h : containsMarkerLoop fuel s = false) : (decodePrefixLoop fuel s).2 = [] ∧
      ∀ cp ∈ (decodePrefixLoop fuel s).1, ¬ (0xee00 ≤ cp ∧ cp ≤ 0xee06) := by
  induction fuel generalizing s with
  | zero =>
    obtain rfl := List.length_eq_zero_iff.mp (Nat.le_zero.mp hfuel)
    exact ⟨rfl, nofun⟩
  | succ fuel ih =>
    rcases s with _ | ⟨b, s⟩
    · exact ⟨rfl, nofun⟩
    rw [containsMarkerLoop, decodeOneUtf8] at h
    rw [decodePrefixLoop]
    rcases hdecode : ZenzPromptBuilder.decodeOneUtf8 (b :: s) with _ | ⟨cp, rest⟩
    · rw [hdecode] at h
      cases h
    rw [hdecode] at h
    dsimp only at h
    split at h
    · cases h
    rename_i hmarker
    have hshorter := (decodeOneUtf8_spec hdecode).2
    obtain ⟨hend, hcps⟩ := ih (by omega) h
    refine ⟨hend, ?_⟩
    intro other hmem
    rcases List.mem_cons.mp hmem with rfl | hmem
    · exact hmarker
    · exact hcps other hmem

theorem sanitizeLoop_eq_flatMap {fuel : Nat} (chars : Nat) {s : Bytes} (hfuel : s.length ≤ fuel)
    (h : ∀ cp ∈ (decodePrefixLoop fuel s).1, isZenzControlCodepoint cp = false) :
    sanitizeLoop 0 fuel chars s = (decodePrefixLoop fuel s).1.flatMap keptText := by
  induction fuel generalizing chars s with
  | zero => rfl
  | succ fuel ih =>
    rw [sanitizeLoop, if_neg (fun hmax => absurd hmax.1 (Nat.lt_irrefl 0))]
    rw [decodePrefixLoop] at h ⊢
    rcases hdecode : ZenzPromptBuilder.decodeOneUtf8 s with _ | ⟨cp, rest⟩
    · rfl
    rw [hdecode] at h
    have hshorter := (decodeOneUtf8_spec hdecode).2
    have hcontrol := h cp List.mem_cons_self
    have hrest := fun chars => ih chars (show rest.length ≤ fuel by omega) fun other hmem =>
      h other (List.mem_cons_of_mem _ hmem)
    dsimp only
    rw [if_neg (Bool.eq_false_iff.mp hcontrol), List.flatMap_cons, keptText]
    split
    · split
      · rw [hrest]
        rfl
      · rw [hrest]
        rfl
    · rw [hrest]

theorem accepted_of_validate {input : ZenzValidationInput} (h : (validate input).accept = true) :
    containsSpecialToken input.zenzValue = false ∧ isValidUtf8 input.zenzValue = true ∧
      charsLen input.zenzValue ≤ charsLen input.key * 3 + 8 := by
  have hreject : ∀ reason, (reject reason).accept = true → False := nofun
  unfold validate at h
  split at h
  · exact (hreject _ h).elim
  split at h
  · exact (hreject _ h).elim
  split at h
  · exact (hreject _ h).elim
  split at h
  · exact (hreject _ h).elim
  split at h
  · exact (hreject _ h).elim
  rename_i hspecial
  split at h
  · exact (hreject _ h).elim
  rename_i hvalid
  dsimp only at h
  split at h
  · exact (hreject _ h).elim
  split at h
  · exact (hreject _ h).elim
  rename_i hlength
  exact ⟨Bool.eq_false_iff.mpr hspecial, not_not.mp hvalid, not_lt.mp hlength⟩

theorem containsMarkerLoop_of_containsSpecialToken {text : Bytes}
    (h : containsSpecialToken text = false) : containsMarkerLoop text.length text = false := by
  rw [containsSpecialToken] at h
  split at h
  · cases h
  · exact h

theorem appendUtf8_two {a b : Nat} (ha : a < 32) (hb : b < 64) (hmin : 0x80 ≤ a * 64 + b) :
    appendUtf8 (a * 64 + b) = [UInt8.ofNat (0xc0 ||| a), UInt8.ofNat (0x80 ||| b)] := by
  have h6 : ((a * 64 + b) >>> 6) &&& 0x1f = a := by
    rw [show 0x1f = 2 ^ 5 - 1 by rfl, low_bits]
    omega
  have h0 : ((a * 64 + b) >>> 0) &&& 0x3f = b := by
    rw [show 0x3f = 2 ^ 6 - 1 by rfl, low_bits]
    omega
  rw [appendUtf8]
  simp only [h6, h0]
  rw [if_neg (by omega), if_pos (by omega)]

theorem appendUtf8_three {a b c : Nat} (ha : a < 16) (hb : b < 64) (hc : c < 64)
    (hmin : 0x800 ≤ (a * 64 + b) * 64 + c) :
    appendUtf8 ((a * 64 + b) * 64 + c) =
      [UInt8.ofNat (0xe0 ||| a), UInt8.ofNat (0x80 ||| b), UInt8.ofNat (0x80 ||| c)] := by
  have h12 : (((a * 64 + b) * 64 + c) >>> 12) &&& 0x0f = a := by
    rw [show 0x0f = 2 ^ 4 - 1 by rfl, low_bits]
    omega
  have h6 : (((a * 64 + b) * 64 + c) >>> 6) &&& 0x3f = b := by
    rw [show 0x3f = 2 ^ 6 - 1 by rfl, low_bits]
    omega
  have h0 : (((a * 64 + b) * 64 + c) >>> 0) &&& 0x3f = c := by
    rw [show 0x3f = 2 ^ 6 - 1 by rfl, low_bits]
    omega
  rw [appendUtf8]
  simp only [h12, h6, h0]
  rw [if_neg (by omega), if_neg (by omega), if_pos (by omega)]

theorem appendUtf8_four {a b c d : Nat} (ha : a < 8) (hb : b < 64) (hc : c < 64) (hd : d < 64)
    (hmin : 0x10000 ≤ ((a * 64 + b) * 64 + c) * 64 + d) :
    appendUtf8 (((a * 64 + b) * 64 + c) * 64 + d) =
      [UInt8.ofNat (0xf0 ||| a), UInt8.ofNat (0x80 ||| b), UInt8.ofNat (0x80 ||| c),
        UInt8.ofNat (0x80 ||| d)] := by
  have h18 : ((((a * 64 + b) * 64 + c) * 64 + d) >>> 18) &&& 0x07 = a := by
    rw [show 0x07 = 2 ^ 3 - 1 by rfl, low_bits]
    omega
  have h12 : ((((a * 64 + b) * 64 + c) * 64 + d) >>> 12) &&& 0x3f = b := by
    rw [show 0x3f = 2 ^ 6 - 1 by rfl, low_bits]
    omega
  have h6 : ((((a * 64 + b) * 64 + c) * 64 + d) >>> 6) &&& 0x3f = c := by
    rw [show 0x3f = 2 ^ 6 - 1 by rfl, low_bits]
    omega
  have h0 : ((((a * 64 + b) * 64 + c) * 64 + d) >>> 0) &&& 0x3f = d := by
    rw [show 0x3f = 2 ^ 6 - 1 by rfl, low_bits]
    omega
  rw [appendUtf8]
  simp only [h18, h12, h6, h0]
  rw [if_neg (by omega), if_neg (by omega), if_neg (by omega)]

/-- What `SplitFirstChar32` does with a leading byte and its trailing bytes; it is particular about
the least value of each form. -/
theorem splitFirstChar32_form {b : UInt8} {bs rest : Bytes} {len minValue maxValue result value : Nat}
    {r : Nat × Bytes} (hascii : ¬ b < 0x80)
    (hleading : leadingByte b = some (len, minValue, maxValue, result)) (hlen : bs.length + 1 = len)
    (hvalue : addTrailingBytes result bs = some value)
    (hsplit : splitFirstChar32 (b :: (bs ++ rest)) = some r) : r = (value, rest) ∧ minValue ≤ value := by
  rcases splitFirstChar32_cases hsplit with ⟨hlt, -⟩ |
    ⟨len', minValue', maxValue', result', hleading', -, hrest, hmin, -, -, -, hvalue'⟩
  · exact absurd hlt hascii
  rw [hleading] at hleading'
  cases hleading'
  subst hlen
  rw [Nat.add_sub_cancel, List.take_left, hvalue] at hvalue'
  rw [List.drop_succ_cons, List.drop_left] at hrest
  obtain rfl := Option.some.inj hvalue'
  exact ⟨Prod.ext rfl hrest, hmin⟩

/-- The bytes of a character that both decoders read, the one of `base/util.cc` without overlong
forms, are those that `AppendUtf8` writes. -/
theorem eq_appendUtf8 {s rest : Bytes} {cp : Nat}
    (h : ZenzPromptBuilder.decodeOneUtf8 s = some (cp, rest)) {r : Nat × Bytes}
    (hsplit : splitFirstChar32 s = some r) : r = (cp, rest) ∧ s = appendUtf8 cp ++ rest := by
  have hlow : ∀ c : UInt8, (c &&& 0x3f).toNat < 64 := fun c =>
    toNat_and_lt c (by decide : (0x3f : UInt8) < 0x40)
  have htrailing : ∀ c : UInt8, c &&& 0xc0 = 0x80 → isUtf8TrailingByte c = true := fun c hc =>
    beq_iff_eq.mpr hc
  rcases decodeOneUtf8_cases h with ⟨c0, rfl, hascii, rfl⟩ | ⟨c0, c1, rfl, hascii, htwo, h1, rfl⟩ |
    ⟨c0, c1, c2, rfl, hascii, htwo, hthree, h1, h2, rfl⟩ |
    ⟨c0, c1, c2, c3, rfl, hascii, htwo, hthree, hfour, h1, h2, h3, rfl⟩
  · rw [splitFirstChar32, if_pos hascii] at hsplit
    refine ⟨(Option.some.inj hsplit).symm, ?_⟩
    have hle : c0.toNat ≤ 0x7f := by
      rw [UInt8.lt_iff_toNat_lt] at hascii
      exact Nat.le_of_lt_succ hascii
    rw [appendUtf8, if_pos hle, UInt8.ofNat_toNat]
    rfl
  · have hleading : leadingByte c0 = some (2, 0x0080, 0x07ff, (c0 &&& 0x1f).toNat) := if_pos htwo
    obtain ⟨heq, hmin⟩ := @splitFirstChar32_form c0 [c1] rest _ _ _ _
      ((c0 &&& 0x1f).toNat * 64 + (c1 &&& 0x3f).toNat) r hascii hleading rfl
      (by rw [addTrailingBytes, if_pos (htrailing c1 h1), addTrailingBytes, Nat.shiftLeft_eq]) hsplit
    refine ⟨heq, ?_⟩
    rw [appendUtf8_two (toNat_and_lt c0 (by decide : (0x1f : UInt8) < 0x20)) (hlow c1) hmin,
      ((byte_form c0).2.1 htwo).2, ((byte_form c1).1 h1).2]
    rfl
  · have hleading : leadingByte c0 = some (3, 0x0800, 0xffff, (c0 &&& 0x0f).toNat) := by
      rw [leadingByte, if_neg htwo, if_pos hthree]
    obtain ⟨heq, hmin⟩ := @splitFirstChar32_form c0 [c1, c2] rest _ _ _ _
      (((c0 &&& 0x0f).toNat * 64 + (c1 &&& 0x3f).toNat) * 64 + (c2 &&& 0x3f).toNat) r hascii hleading
      rfl (by
        rw [addTrailingBytes, if_pos (htrailing c1 h1), addTrailingBytes, if_pos (htrailing c2 h2),
          addTrailingBytes, Nat.shiftLeft_eq, Nat.shiftLeft_eq]) hsplit
    refine ⟨heq, ?_⟩
    rw [appendUtf8_three (toNat_and_lt c0 (by decide : (0x0f : UInt8) < 0x10)) (hlow c1) (hlow c2) hmin,
      ((byte_form c0).2.2.1 hthree).2, ((byte_form c1).1 h1).2, ((byte_form c2).1 h2).2]
    rfl
  · have hleading : leadingByte c0 = some (4, 0x010000, 0x1fffff, (c0 &&& 0x07).toNat) := by
      rw [leadingByte, if_neg htwo, if_neg hthree, if_pos hfour]
    obtain ⟨heq, hmin⟩ := @splitFirstChar32_form c0 [c1, c2, c3] rest _ _ _ _
      ((((c0 &&& 0x07).toNat * 64 + (c1 &&& 0x3f).toNat) * 64 + (c2 &&& 0x3f).toNat) * 64 +
        (c3 &&& 0x3f).toNat) r hascii hleading rfl (by
        rw [addTrailingBytes, if_pos (htrailing c1 h1), addTrailingBytes, if_pos (htrailing c2 h2),
          addTrailingBytes, if_pos (htrailing c3 h3), addTrailingBytes, Nat.shiftLeft_eq,
          Nat.shiftLeft_eq, Nat.shiftLeft_eq]) hsplit
    refine ⟨heq, ?_⟩
    rw [appendUtf8_four (toNat_and_lt c0 (by decide : (0x07 : UInt8) < 0x08)) (hlow c1) (hlow c2)
      (hlow c3) hmin, ((byte_form c0).2.2.2 hfour).2, ((byte_form c1).1 h1).2,
      ((byte_form c2).1 h2).2, ((byte_form c3).1 h3).2]
    rfl

theorem eq_flatMap_of_valid {fuel : Nat} {s : Bytes} (hfuel : s.length ≤ fuel)
    (hvalid : isValidUtf8Loop fuel s = true) (hend : (decodePrefixLoop fuel s).2 = []) :
    s = (decodePrefixLoop fuel s).1.flatMap appendUtf8 := by
  induction fuel generalizing s with
  | zero =>
    obtain rfl := List.length_eq_zero_iff.mp (Nat.le_zero.mp hfuel)
    rfl
  | succ fuel ih =>
    rcases s with _ | ⟨b, bs⟩
    · rfl
    rw [isValidUtf8Loop] at hvalid
    rw [decodePrefixLoop] at hend ⊢
    rcases hdecode : ZenzPromptBuilder.decodeOneUtf8 (b :: bs) with _ | ⟨cp, rest⟩
    · rw [hdecode] at hend
      cases hend
    rw [hdecode] at hend
    rcases hsplit : splitFirstChar32 (b :: bs) with _ | r
    · rw [hsplit] at hvalid
      cases hvalid
    obtain ⟨rfl, hbytes⟩ := eq_appendUtf8 hdecode hsplit
    rw [hsplit] at hvalid
    have hshorter := (decodeOneUtf8_spec hdecode).2
    have hrest := ih (by omega) hvalid hend
    dsimp only
    rw [List.flatMap_cons, ← hrest]
    exact hbytes

theorem or_eq_add : (∀ x < 64, 0x80 ||| x = x + 0x80) ∧ (∀ x < 32, 0xc0 ||| x = x + 0xc0) ∧
    (∀ x < 16, 0xe0 ||| x = x + 0xe0) ∧ ∀ x < 8, 0xf0 ||| x = x + 0xf0 := by decide

theorem appendUtf8_toNat (c : Char) : appendUtf8 c.toNat = String.utf8EncodeChar c := by
  have hmax : c.val.toNat < 0x110000 := by
    rcases c.valid with h | ⟨-, h⟩
    · exact Nat.lt_trans h (by decide)
    · exact h
  have htrailing : ∀ shift, (c.toNat >>> shift) &&& 0x3f = c.toNat / 2 ^ shift % 64 := fun shift =>
    low_bits c.toNat shift 6
  have hpow : 2 ^ 0 = 1 ∧ 2 ^ 6 = 64 ∧ 2 ^ 12 = 4096 := by decide
  have hsix : (c.toNat >>> 6) &&& 0x1f = c.toNat / 64 % 32 := low_bits c.toNat 6 5
  have htwelve : (c.toNat >>> 12) &&& 0x0f = c.toNat / 4096 % 16 := low_bits c.toNat 12 4
  have heighteen : (c.toNat >>> 18) &&& 0x07 = c.toNat / 262144 % 8 := low_bits c.toNat 18 3
  have hlow : ∀ n, 0x80 ||| n % 64 = n % 64 + 0x80 := fun n =>
    or_eq_add.1 _ (Nat.mod_lt n (by decide))
  rw [appendUtf8, String.utf8EncodeChar]
  simp only [htrailing, hpow.1, hpow.2.1, hpow.2.2, Nat.div_one, hsix, htwelve, heighteen, hlow,
    or_eq_add.2.1 _ (Nat.mod_lt (c.toNat / 64) (by decide : 0 < 32)),
    or_eq_add.2.2.1 _ (Nat.mod_lt (c.toNat / 4096) (by decide : 0 < 16)),
    or_eq_add.2.2.2 _ (Nat.mod_lt (c.toNat / 262144) (by decide : 0 < 8))]
  rfl

theorem decodePrefixLoop_utf8 {fuel : Nat} (cs : List Char) (hfuel : (utf8 cs).length ≤ fuel)
    (hend : (decodePrefixLoop fuel (utf8 cs)).2 = []) :
    (decodePrefixLoop fuel (utf8 cs)).1 = cs.map Char.toNat := by
  induction cs generalizing fuel with
  | nil => cases fuel <;> rfl
  | cons c cs ih =>
    rw [utf8_cons] at hfuel hend ⊢
    have hsplit := splitFirstChar32_utf8 c (utf8 cs)
    have hlength := length_lt_of_splitFirstChar32 hsplit
    obtain ⟨fuel, rfl⟩ : ∃ n, fuel = n + 1 := ⟨fuel - 1, by omega⟩
    rw [decodePrefixLoop] at hend ⊢
    rcases hdecode : ZenzPromptBuilder.decodeOneUtf8 (String.utf8EncodeChar c ++ utf8 cs) with
      _ | ⟨cp, rest⟩
    · rw [hdecode] at hend
      rw [List.append_eq_nil_iff] at hend
      exact absurd hend.1 String.utf8EncodeChar_ne_nil
    · rw [hdecode] at hend
      obtain ⟨heq, -⟩ := eq_appendUtf8 hdecode hsplit
      obtain ⟨rfl, rfl⟩ := Prod.mk.inj heq
      dsimp only at hend ⊢
      rw [ih (by omega) hend, List.map_cons]

/-- The code points of characters, which surrogates and greater numbers are not. -/
def IsScalar (cp : Nat) : Prop := cp < 0xd800 ∨ (0xdfff < cp ∧ cp < 0x110000)

/-- A valid text that is decoded to its end is UTF-8 of Unicode exactly if its code points are those
of characters. -/
theorem exists_utf8_iff {s : Bytes} (hvalid : isValidUtf8 s = true) (hend : (decodePrefix s).2 = []) :
    (∃ cs : List Char, s = utf8 cs) ↔ ∀ cp ∈ (decodePrefix s).1, IsScalar cp := by
  constructor
  · rintro ⟨cs, rfl⟩ cp hmem
    rw [decodePrefix, decodePrefixLoop_utf8 cs le_rfl hend] at hmem
    obtain ⟨c, -, rfl⟩ := List.mem_map.mp hmem
    exact c.valid
  · intro hscalar
    refine ⟨(decodePrefix s).1.map Char.ofNat, ?_⟩
    have hbytes : s = (decodePrefix s).1.flatMap appendUtf8 :=
      eq_flatMap_of_valid le_rfl hvalid hend
    conv_lhs => rw [hbytes]
    rw [utf8, List.flatMap_map]
    apply List.flatMap_congr
    intro cp hmem
    have hnat : (Char.ofNat cp).toNat = cp := by
      rw [Char.toNat_ofNat, if_pos]
      exact hscalar cp hmem
    conv_lhs => rw [← hnat]
    exact appendUtf8_toNat _

/-- A value that `Validate` accepts is valid in the sense of `IsValidUtf8`, not too long, and free of
reserved code points exactly if it does not hold any of U+EE07 to U+EE0F; it is UTF-8 of Unicode as
well exactly if, besides, it holds neither surrogates nor numbers beyond U+10FFFF. -/
theorem validate_accept_iff {input : ZenzValidationInput} (h : (validate input).accept = true) :
    (AcceptedText input.key input.zenzValue ↔
      ∀ cp ∈ (decodePrefix input.zenzValue).1, ¬ (0xee07 ≤ cp ∧ cp ≤ 0xee0f)) ∧
    ((∃ cs : List Char, input.zenzValue = utf8 cs) ∧ AcceptedText input.key input.zenzValue ↔
      ∀ cp ∈ (decodePrefix input.zenzValue).1, ¬ (0xee07 ≤ cp ∧ cp ≤ 0xee0f) ∧ IsScalar cp) := by
  obtain ⟨hspecial, hvalid, hlength⟩ := accepted_of_validate h
  obtain ⟨hend, hmarkers⟩ := decodePrefixLoop_of_containsMarkerLoop le_rfl
    (containsMarkerLoop_of_containsSpecialToken hspecial)
  have hdecoded := length_decodePrefixLoop input.zenzValue.length input.zenzValue
  have hcontrol : ∀ cp, isZenzControlCodepoint cp = true ↔ 0xee00 ≤ cp ∧ cp ≤ 0xee0f := by
    intro cp
    rw [isZenzControlCodepoint, Bool.and_eq_true, decide_eq_true_eq, decide_eq_true_eq]
  have hlenient : AcceptedText input.key input.zenzValue ↔
      ∀ cp ∈ (decodePrefix input.zenzValue).1, ¬ (0xee07 ≤ cp ∧ cp ≤ 0xee0f) := by
    constructor
    · intro haccepted cp hmem hreserved
      have hno := haccepted.noControl cp hmem
      rw [(hcontrol cp).mpr ⟨by omega, hreserved.2⟩] at hno
      cases hno
    · intro hreserved
      have hno : ∀ cp ∈ (decodePrefix input.zenzValue).1, isZenzControlCodepoint cp = false := by
        intro cp hmem
        rw [Bool.eq_false_iff, Ne, hcontrol]
        intro hbounds
        have hlow := hmarkers cp hmem
        have hhigh := hreserved cp hmem
        omega
      refine ⟨hvalid, ?_, hno, sanitizeLoop_eq_flatMap 0 le_rfl hno⟩
      rw [decodePrefix]
      omega
  refine ⟨hlenient, ?_⟩
  rw [hlenient, exists_utf8_iff hvalid hend]
  constructor
  · exact fun hboth cp hmem => ⟨hboth.2 cp hmem, hboth.1 cp hmem⟩
  · exact fun hboth => ⟨fun cp hmem => (hboth cp hmem).2, fun cp hmem => (hboth cp hmem).1⟩

/-- A key of five letters and the value U+EE07. -/
def rightContextInput : ZenzValidationInput :=
  { key := [0x61, 0x61, 0x61, 0x61, 0x61], mozcValue := [], zenzValue := [0xee, 0xb8, 0x87] }

theorem validate_accept_iff_rightContext :
    (AcceptedText rightContextInput.key rightContextInput.zenzValue ↔
      ∀ cp ∈ (decodePrefix rightContextInput.zenzValue).1, ¬ (0xee07 ≤ cp ∧ cp ≤ 0xee0f)) ∧
    (decodePrefix rightContextInput.zenzValue).1 = [0xee07] :=
  ⟨(@validate_accept_iff rightContextInput (by decide)).1, by decide⟩

/-- The marker of the right context is accepted. -/
theorem not_acceptedText :
    ¬ ∀ input : ZenzValidationInput, (validate input).accept = true →
      AcceptedText input.key input.zenzValue := by
  intro hall
  have haccepted := hall rightContextInput (by decide)
  exact absurd (haccepted.noControl 0xee07 (by decide)) (by decide)

end ZenzOutputValidator

end Mozkey.Session
