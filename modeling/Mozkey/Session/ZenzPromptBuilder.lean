import Mozkey.Base.Codepoint

/-! `ZenzPromptBuilder` of `session/zenz_prompt_builder.cc`. -/

namespace Mozkey.Session

open Storage Base

namespace ZenzPromptBuilder

inductive Field where
  | reading
  | output
  | context
  | profile
  | topic
  | style
  | settings
  | rightContext
  deriving DecidableEq

/-- The last byte of the marker before a field, which is U+EE00 to U+EE07. -/
def Field.lastByte : Field → UInt8
  | .reading => 0x80
  | .output => 0x81
  | .context => 0x82
  | .profile => 0x83
  | .topic => 0x84
  | .style => 0x85
  | .settings => 0x86
  | .rightContext => 0x87

def Field.marker (field : Field) : Bytes := [0xee, 0xb8, field.lastByte]

def kMaxZenzConditionChars : Nat := 64

/-- `DecodeOneUtf8`, on what lies behind the index: the code point, and what lies behind it. -/
def decodeOneUtf8 : Bytes → Option (Nat × Bytes)
  | [] => none
  | c0 :: s =>
    if c0 < 0x80 then some (c0.toNat, s)
    else if c0 &&& 0xe0 = 0xc0 then
      match s with
      | c1 :: s =>
        if c1 &&& 0xc0 ≠ 0x80 then none
        else some (((c0 &&& 0x1f).toNat <<< 6) ||| (c1 &&& 0x3f).toNat, s)
      | _ => none
    else if c0 &&& 0xf0 = 0xe0 then
      match s with
      | c1 :: c2 :: s =>
        if c1 &&& 0xc0 ≠ 0x80 ∨ c2 &&& 0xc0 ≠ 0x80 then none
        else
          some (((c0 &&& 0x0f).toNat <<< 12) ||| ((c1 &&& 0x3f).toNat <<< 6) |||
            (c2 &&& 0x3f).toNat, s)
      | _ => none
    else if c0 &&& 0xf8 = 0xf0 then
      match s with
      | c1 :: c2 :: c3 :: s =>
        if c1 &&& 0xc0 ≠ 0x80 ∨ c2 &&& 0xc0 ≠ 0x80 ∨ c3 &&& 0xc0 ≠ 0x80 then none
        else
          some (((c0 &&& 0x07).toNat <<< 18) ||| ((c1 &&& 0x3f).toNat <<< 12) |||
            ((c2 &&& 0x3f).toNat <<< 6) ||| (c3 &&& 0x3f).toNat, s)
      | _ => none
    else none

def appendUtf8 (codepoint : Nat) : Bytes :=
  let trailing (shift : Nat) : UInt8 := UInt8.ofNat (0x80 ||| ((codepoint >>> shift) &&& 0x3f))
  if codepoint ≤ 0x7f then [UInt8.ofNat codepoint]
  else if codepoint ≤ 0x7ff then [UInt8.ofNat (0xc0 ||| ((codepoint >>> 6) &&& 0x1f)), trailing 0]
  else if codepoint ≤ 0xffff then
    [UInt8.ofNat (0xe0 ||| ((codepoint >>> 12) &&& 0x0f)), trailing 6, trailing 0]
  else [UInt8.ofNat (0xf0 ||| ((codepoint >>> 18) &&& 0x07)), trailing 12, trailing 6, trailing 0]

def isZenzControlCodepoint (codepoint : Nat) : Bool := 0xee00 ≤ codepoint && codepoint ≤ 0xee0f

def isUnsafeControlCodepoint (codepoint : Nat) : Bool := codepoint < 0x20 || codepoint == 0x7f

/-- The loop of `SanitizeConditionText`, in which `chars` characters have been written; the length of
the input is fuel enough. -/
def sanitizeLoop (maxChars : Nat) : Nat → Nat → Bytes → Bytes
  | 0, _, _ => []
  | fuel + 1, chars, input =>
    if 0 < maxChars ∧ maxChars ≤ chars then []
    else
      match decodeOneUtf8 input with
      | none => []
      | some (cp, rest) =>
        if isZenzControlCodepoint cp then sanitizeLoop maxChars fuel chars rest
        else if isUnsafeControlCodepoint cp then
          if cp = 0x09 ∨ cp = 0x0a ∨ cp = 0x0d then
            0x20 :: sanitizeLoop maxChars fuel (chars + 1) rest
          else sanitizeLoop maxChars fuel chars rest
        else appendUtf8 cp ++ sanitizeLoop maxChars fuel (chars + 1) rest

def sanitizeConditionText (input : Bytes) (maxChars : Nat) : Bytes :=
  sanitizeLoop maxChars input.length 0 input

def hiraganaToKatakanaLoop : Nat → Bytes → Bytes
  | 0, _ => []
  | fuel + 1, input =>
    match decodeOneUtf8 input with
    | none => input
    | some (cp, rest) =>
      let cp := if 0x3041 ≤ cp ∧ cp ≤ 0x3096 then cp + 0x60 else cp
      appendUtf8 cp ++ hiraganaToKatakanaLoop fuel rest

def hiraganaToKatakana (input : Bytes) : Bytes := hiraganaToKatakanaLoop input.length input

structure ZenzPromptOptions where
  leftContext : Bytes := []
  rightContext : Bytes := []
  profile : Bytes := []
  topic : Bytes := []
  style : Bytes := []
  settings : Bytes := []

/-- What `Build` appends for a field that stays away where its text is empty. -/
def appendField (field : Field) (text : Bytes) : Bytes :=
  if text = [] then [] else field.marker ++ text

def build (readingHiragana : Bytes) (options : ZenzPromptOptions) : Bytes :=
  let leftContext := sanitizeConditionText options.leftContext 0
  let rightContext := sanitizeConditionText options.rightContext 0
  let profile := sanitizeConditionText options.profile kMaxZenzConditionChars
  let topic := sanitizeConditionText options.topic kMaxZenzConditionChars
  let style := sanitizeConditionText options.style kMaxZenzConditionChars
  let settings := sanitizeConditionText options.settings kMaxZenzConditionChars
  let readingKatakana := hiraganaToKatakana readingHiragana
  Field.context.marker ++ leftContext ++ appendField .rightContext rightContext ++
    appendField .profile profile ++ appendField .topic topic ++ appendField .style style ++
    appendField .settings settings ++ Field.reading.marker ++ readingKatakana ++ Field.output.marker

def buildWithContext (leftContext readingHiragana : Bytes) : Bytes :=
  build readingHiragana { leftContext := leftContext }

theorem toNat_and_lt (c : UInt8) {m n : UInt8} (h : m < n) : (c &&& m).toNat < n.toNat := by
  rw [UInt8.toNat_and]
  exact Nat.lt_of_le_of_lt Nat.and_le_right (UInt8.lt_iff_toNat_lt.mp h)

theorem shiftLeft_or {low k : Nat} (high : Nat) (h : low < 2 ^ k) :
    high <<< k ||| low = high * 2 ^ k + low := by
  rw [← Nat.shiftLeft_add_eq_or_of_lt h, Nat.shiftLeft_eq]

theorem decodeOneUtf8_cases {input rest : Bytes} {cp : Nat}
    (h : decodeOneUtf8 input = some (cp, rest)) :
    (∃ c0, input = c0 :: rest ∧ c0 < 0x80 ∧ cp = c0.toNat) ∨
    (∃ c0 c1, input = c0 :: c1 :: rest ∧ ¬ c0 < 0x80 ∧ c0 &&& 0xe0 = 0xc0 ∧ c1 &&& 0xc0 = 0x80 ∧
      cp = (c0 &&& 0x1f).toNat * 64 + (c1 &&& 0x3f).toNat) ∨
    (∃ c0 c1 c2, input = c0 :: c1 :: c2 :: rest ∧ ¬ c0 < 0x80 ∧ c0 &&& 0xe0 ≠ 0xc0 ∧
      c0 &&& 0xf0 = 0xe0 ∧ c1 &&& 0xc0 = 0x80 ∧ c2 &&& 0xc0 = 0x80 ∧
      cp = ((c0 &&& 0x0f).toNat * 64 + (c1 &&& 0x3f).toNat) * 64 + (c2 &&& 0x3f).toNat) ∨
    ∃ c0 c1 c2 c3, input = c0 :: c1 :: c2 :: c3 :: rest ∧ ¬ c0 < 0x80 ∧ c0 &&& 0xe0 ≠ 0xc0 ∧
      c0 &&& 0xf0 ≠ 0xe0 ∧ c0 &&& 0xf8 = 0xf0 ∧ c1 &&& 0xc0 = 0x80 ∧ c2 &&& 0xc0 = 0x80 ∧
      c3 &&& 0xc0 = 0x80 ∧
      cp = (((c0 &&& 0x07).toNat * 64 + (c1 &&& 0x3f).toNat) * 64 + (c2 &&& 0x3f).toNat) * 64 +
        (c3 &&& 0x3f).toNat := by
  have hlow : ∀ c : UInt8, (c &&& 0x3f).toNat < 2 ^ 6 := fun c =>
    toNat_and_lt c (by decide : (0x3f : UInt8) < 0x40)
  rcases input with _ | ⟨c0, s⟩
  · cases h
  unfold decodeOneUtf8 at h
  dsimp only at h
  split at h
  · rename_i hascii
    cases h
    exact .inl ⟨c0, rfl, hascii, rfl⟩
  rename_i hascii
  split at h
  · rename_i htwo
    rcases s with _ | ⟨c1, s⟩
    · cases h
    dsimp only at h
    split at h
    · cases h
    · rename_i hc1
      cases h
      rw [shiftLeft_or _ (hlow c1)]
      exact .inr (.inl ⟨c0, c1, rfl, hascii, htwo, not_not.mp hc1, rfl⟩)
  rename_i htwo
  split at h
  · rename_i hthree
    rcases s with _ | ⟨c1, _ | ⟨c2, s⟩⟩
    · cases h
    · cases h
    dsimp only at h
    split at h
    · cases h
    · rename_i hc
      rw [not_or, not_not, not_not] at hc
      cases h
      have hsum : ((c0 &&& 0x0f).toNat <<< 12) ||| ((c1 &&& 0x3f).toNat <<< 6) |||
          (c2 &&& 0x3f).toNat =
            ((c0 &&& 0x0f).toNat * 64 + (c1 &&& 0x3f).toNat) * 64 + (c2 &&& 0x3f).toNat := by
        have h1 := hlow c1
        have h2 := hlow c2
        rw [Nat.or_assoc, shiftLeft_or _ h2, shiftLeft_or _ (by omega)]
        omega
      exact .inr (.inr (.inl ⟨c0, c1, c2, rfl, hascii, htwo, hthree, hc.1, hc.2, hsum⟩))
  rename_i hthree
  split at h
  · rename_i hfour
    rcases s with _ | ⟨c1, _ | ⟨c2, _ | ⟨c3, s⟩⟩⟩
    · cases h
    · cases h
    · cases h
    dsimp only at h
    split at h
    · cases h
    · rename_i hc
      rw [not_or, not_or, not_not, not_not, not_not] at hc
      cases h
      have hsum : ((c0 &&& 0x07).toNat <<< 18) ||| ((c1 &&& 0x3f).toNat <<< 12) |||
          ((c2 &&& 0x3f).toNat <<< 6) ||| (c3 &&& 0x3f).toNat =
            (((c0 &&& 0x07).toNat * 64 + (c1 &&& 0x3f).toNat) * 64 + (c2 &&& 0x3f).toNat) * 64 +
              (c3 &&& 0x3f).toNat := by
        have h1 := hlow c1
        have h2 := hlow c2
        have h3 := hlow c3
        have hmiddle : (c2 &&& 0x3f).toNat * 2 ^ 6 + (c3 &&& 0x3f).toNat < 2 ^ 12 := by omega
        rw [Nat.or_assoc, Nat.or_assoc, shiftLeft_or _ h3, shiftLeft_or _ hmiddle,
          shiftLeft_or _ (by omega)]
        omega
      exact .inr (.inr (.inr ⟨c0, c1, c2, c3, rfl, hascii, htwo, hthree, hfour, hc.1, hc.2.1, hc.2.2,
        hsum⟩))
  · cases h

theorem decodeOneUtf8_spec {input rest : Bytes} {cp : Nat} (h : decodeOneUtf8 input = some (cp, rest)) :
    cp < 0x200000 ∧ rest.length < input.length := by
  have hlow : ∀ c : UInt8, (c &&& 0x3f).toNat < 64 := fun c =>
    toNat_and_lt c (by decide : (0x3f : UInt8) < 0x40)
  rcases decodeOneUtf8_cases h with ⟨c0, rfl, -, rfl⟩ | ⟨c0, c1, rfl, -, -, -, rfl⟩ |
    ⟨c0, c1, c2, rfl, -, -, -, -, -, rfl⟩ | ⟨c0, c1, c2, c3, rfl, -, -, -, -, -, -, -, rfl⟩
  · have hbyte := c0.toNat_lt
    exact ⟨by omega, Nat.lt_succ_self _⟩
  · have h0 := toNat_and_lt c0 (by decide : (0x1f : UInt8) < 0x20)
    have h1 := hlow c1
    have hnum : (0x20 : UInt8).toNat = 32 := rfl
    refine ⟨by omega, ?_⟩
    simp only [List.length_cons]
    omega
  · have h0 := toNat_and_lt c0 (by decide : (0x0f : UInt8) < 0x10)
    have h1 := hlow c1
    have h2 := hlow c2
    have hnum : (0x10 : UInt8).toNat = 16 := rfl
    refine ⟨by omega, ?_⟩
    simp only [List.length_cons]
    omega
  · have h0 := toNat_and_lt c0 (by decide : (0x07 : UInt8) < 0x08)
    have h1 := hlow c1
    have h2 := hlow c2
    have h3 := hlow c3
    have hnum : (0x08 : UInt8).toNat = 8 := rfl
    refine ⟨by omega, ?_⟩
    simp only [List.length_cons]
    omega

end ZenzPromptBuilder

end Mozkey.Session
