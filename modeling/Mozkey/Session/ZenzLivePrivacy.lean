import Mozkey.Base.ScriptType
import Mozkey.Lib.ConsecutiveRuns
import Mozkey.Session.ZenzOutputValidator

/-! The gates `EvaluateZenzLiveKeyPrivacy` and `EvaluateZenzLiveValuePrivacy` of `session/session.cc`,
and what the tokens of a text look like that they let pass. -/

namespace Mozkey.Session

open Storage Base Lib ZenzOutputValidator ZenzFeedbackStore

namespace ZenzLivePrivacy

def kMaxZenzLiveCorrectionKeyChars : Nat := 64

def kMaxZenzLiveCorrectionValueChars : Nat := 128

structure ZenzTextPrivacyDecision where
  allow : Bool := false
  reason : Bytes := str "unspecified"
  deriving DecidableEq

def isAsciiAlpha (c : UInt8) : Bool := (0x61 ≤ c && c ≤ 0x7a) || (0x41 ≤ c && c ≤ 0x5a)

def isAsciiDigit (c : UInt8) : Bool := 0x30 ≤ c && c ≤ 0x39

def isAsciiAlnum (c : UInt8) : Bool := isAsciiAlpha c || isAsciiDigit c

def isAsciiControl (c : UInt8) : Bool := c < 0x20 || c == 0x7f

def toLowerAscii (text : Bytes) : Bytes :=
  text.map fun c => if 0x41 ≤ c ∧ c ≤ 0x5a then c - 0x41 + 0x61 else c

def containsAsciiSubstring (text : Bytes) (needle : String) : Bool := strContains text needle

def containsAsciiControl (text : Bytes) : Bool := text.any isAsciiControl

def isJapaneseScriptSignal (c : Nat) : Bool :=
  Util.inRange c 0x3040 0x309f || Util.inRange c 0x30a0 0x30ff || Util.inRange c 0xff66 0xff9f ||
    Util.inRange c 0x4e00 0x9fff || Util.inRange c 0x3400 0x4dbf || Util.inRange c 0xf900 0xfaff ||
    Util.inRange c 0x20000 0x2a6df || Util.inRange c 0x2a700 0x2b73f ||
    Util.inRange c 0x2b740 0x2b81f || Util.inRange c 0x2b820 0x2ceaf ||
    Util.inRange c 0x30000 0x3134f

def containsJapaneseScriptSignal (text : Bytes) : Bool :=
  (utf8ToUtf32 text).any isJapaneseScriptSignal

def looksLikeUrlOrDomain (text : Bytes) : Bool :=
  let lower := toLowerAscii text
  if strContains lower "://" || strContains lower "www." then true
  else [".com", ".net", ".org", ".jp", ".co.jp", ".io", ".dev", ".app", ".local",
    ".localhost"].any (containsAsciiSubstring lower)

def looksLikeEmail (text : Bytes) : Bool := text.contains 0x40

def looksLikePath (text : Bytes) : Bool :=
  let lower := toLowerAscii text
  if text.contains 0x5c then true
  else if (match lower with
    | c0 :: c1 :: c2 :: _ => isAsciiAlpha c0 && c1 == 0x3a && (c2 == 0x5c || c2 == 0x2f)
    | _ => false) then true
  else (str "/").isPrefixOf lower || (str "~/").isPrefixOf lower || strContains lower "../" ||
    strContains lower "./"

def isAsciiTokenChar (c : UInt8) : Bool := isAsciiAlnum c || c == 0x5f || c == 0x2d || c == 0x2e

def isAsciiHexDigit (c : UInt8) : Bool :=
  isAsciiDigit c || (0x61 ≤ c && c ≤ 0x66) || (0x41 ≤ c && c ≤ 0x46)

/-- The digits of a group of `IsIpv4LikeAsciiToken`, with the text behind them, for a value that is not
too large. -/
def ipv4Group : Nat → Bytes → Option Bytes
  | _, [] => some []
  | value, c :: token =>
    if isAsciiDigit c then
      let value := value * 10 + (c - 0x30).toNat
      if value > 255 then none else ipv4Group value token
    else some (c :: token)

/-- The loop of `IsIpv4LikeAsciiToken`, by the number of groups that are left. -/
def ipv4Loop : Nat → Bytes → Bool
  | _, [] => false
  | 0, _ :: _ => false
  | groups + 1, c :: token =>
    match ipv4Group 0 (c :: token) with
    | none => false
    | some rest =>
      if rest.length = (c :: token).length then false
      else if groups = 0 then rest = []
      else
        match rest with
        | 0x2e :: rest => ipv4Loop groups rest
        | _ => false

def isIpv4LikeAsciiToken (token : Bytes) : Bool := ipv4Loop 4 token

def consumeDigits (token : Bytes) : Option Bytes :=
  let rest := token.dropWhile isAsciiDigit
  if rest.length < token.length then some rest else none

/-- The loop of `IsVersionLikeAsciiToken`: whether it saw a dot, and what is behind the groups. -/
def versionLoop : (fuel numericGroupCount : Nat) → Bool → Bytes → Option (Bool × Bytes)
  | 0, _, _, _ => none
  | fuel + 1, numericGroupCount, sawDot, token =>
    match token with
    | 0x2e :: token =>
      match consumeDigits token with
      | none => none
      | some rest =>
        if numericGroupCount + 1 > 4 then none
        else versionLoop fuel (numericGroupCount + 1) true rest
    | _ => some (sawDot, token)

def isVersionLikeAsciiToken (token : Bytes) : Bool :=
  if token = [] then false
  else
    let digits := if token.head? = some 0x76 ∨ token.head? = some 0x56 then token.drop 1 else token
    match consumeDigits digits with
    | none => false
    | some rest =>
      match versionLoop (rest.length + 1) 1 false rest with
      | none => false
      | some (sawDot, rest) =>
        if ¬ sawDot then false
        else
          match rest with
          | 0x2d :: suffix =>
            let rest := suffix.dropWhile isAsciiAlpha
            if rest.length = suffix.length then false else rest.dropWhile isAsciiDigit = []
          | _ => rest = []

def checkToken (token : Bytes) : Bool :=
  if token = [] then false
  else if isIpv4LikeAsciiToken token then true
  else if isVersionLikeAsciiToken token then false
  else
    let longestDigitRun := (runLengths isAsciiDigit (0, 0) token).2
    let hasAlpha := token.any isAsciiAlpha
    let hasDigit := token.any isAsciiDigit
    let hasSymbol := token.any fun c => c == 0x5f || c == 0x2d || c == 0x2e
    let allHex := token.all isAsciiHexDigit
    let len := token.length
    if longestDigitRun ≥ 8 then true
    else if len ≥ 12 && hasAlpha && hasDigit && hasSymbol then true
    else if len ≥ 16 && hasAlpha && hasDigit then true
    else if len ≥ 16 && allHex && hasAlpha then true
    else if len ≥ 24 && hasAlpha then true
    else if len ≥ 32 then true
    else false

/-- The loop of `LooksLikeLongAsciiToken`, with the bytes of the token that it is in. -/
def longTokenLoop : Bytes → Bytes → Bool
  | token, [] => if token ≠ [] then checkToken token else false
  | token, c :: text =>
    if isAsciiTokenChar c then longTokenLoop (token ++ [c]) text
    else if token ≠ [] ∧ checkToken token then true
    else longTokenLoop [] text

def looksLikeLongAsciiToken (text : Bytes) : Bool := longTokenLoop [] text

def looksLikeKnownSecretPrefix (text : Bytes) : Bool :=
  let lower := toLowerAscii text
  ["ghp_", "github_pat_", "glpat-", "sk-", "xoxb-", "xoxp-", "ya29.", "akia", "bearer "].any
    (containsAsciiSubstring lower)

def containsSensitiveCredentialWord (text : Bytes) : Bool :=
  let lower := toLowerAscii text
  ["password", "passwd", "passphrase", "secret", "token", "apikey", "api_key", "credential",
      "privatekey", "private_key", "authorization"].any (containsAsciiSubstring lower) ||
    ["パスワード", "暗証番号", "認証コード", "認証番号", "秘密鍵", "秘密キー", "トークン", "アクセストークン", "APIキー",
      "apiキー"].any (strContains text)

def evaluateZenzLiveKeyPrivacy (key : Bytes) : ZenzTextPrivacyDecision :=
  if key = [] then ⟨false, str "empty_key"⟩
  else if ¬ isValidUtf8 key then ⟨false, str "invalid_utf8"⟩
  else if containsAsciiControl key then ⟨false, str "control_char"⟩
  else if charsLen key > kMaxZenzLiveCorrectionKeyChars then ⟨false, str "key_too_long"⟩
  else if ¬ containsJapaneseScriptSignal key then ⟨false, str "no_japanese_signal"⟩
  else if looksLikeEmail key then ⟨false, str "email_like"⟩
  else if looksLikeUrlOrDomain key then ⟨false, str "url_or_domain_like"⟩
  else if looksLikePath key then ⟨false, str "path_like"⟩
  else if looksLikeKnownSecretPrefix key then ⟨false, str "secret_prefix"⟩
  else if looksLikeLongAsciiToken key then ⟨false, str "token_like"⟩
  else if containsSensitiveCredentialWord key then ⟨false, str "credential_word"⟩
  else ⟨true, str "allow"⟩

def evaluateZenzLiveValuePrivacy (value : Bytes) : ZenzTextPrivacyDecision :=
  if value = [] then ⟨false, str "empty_value"⟩
  else if ¬ isValidUtf8 value then ⟨false, str "invalid_utf8"⟩
  else if containsAsciiControl value then ⟨false, str "control_char"⟩
  else if charsLen value > kMaxZenzLiveCorrectionValueChars then ⟨false, str "value_too_long"⟩
  else if looksLikeEmail value then ⟨false, str "email_like"⟩
  else if looksLikeUrlOrDomain value then ⟨false, str "url_or_domain_like"⟩
  else if looksLikePath value then ⟨false, str "path_like"⟩
  else if looksLikeKnownSecretPrefix value then ⟨false, str "secret_prefix"⟩
  else if looksLikeLongAsciiToken value then ⟨false, str "token_like"⟩
  else if containsSensitiveCredentialWord value then ⟨false, str "credential_word"⟩
  else ⟨true, str "allow"⟩

/-- The tokens of a text: what is between the other characters. -/
def tokens (text : Bytes) : List Bytes :=
  (text.splitOnP fun c => !isAsciiTokenChar c).filter (· ≠ [])

/-- Some digits of the text, with dots, are an IPv4 address. -/
def ContainsQuad (text : Bytes) : Prop := ∃ quad, quad <:+: text ∧ isIpv4LikeAsciiToken quad = true

section tokens

variable {text token rest : Bytes} {c : UInt8}

theorem longTokenLoop_eq (token text : Bytes) : longTokenLoop token text =
    ((text.splitOnP fun c => !isAsciiTokenChar c).modifyHead (token ++ ·)).any checkToken := by
  induction text generalizing token with
  | nil =>
    rw [longTokenLoop, List.splitOnP_nil, List.modifyHead_cons, List.append_nil, List.any_cons,
      List.any_nil, Bool.or_false]
    split
    · rfl
    · rename_i hnil
      rw [not_not.mp hnil]
      rfl
  | cons c text ih =>
    obtain ⟨head, pieces, hsplit⟩ : ∃ head pieces,
        text.splitOnP (fun c => !isAsciiTokenChar c) = head :: pieces :=
      List.exists_cons_of_ne_nil (List.splitOnP_ne_nil _ _)
    rw [longTokenLoop, ih, ih, List.splitOnP_cons_eq_if_modifyHead, hsplit]
    by_cases hc : isAsciiTokenChar c
    · simp [hc]
    · by_cases hnil : token = []
      · simp [hc, hnil, checkToken]
      · simp [hc, hnil]

theorem looksLikeLongAsciiToken_eq (text : Bytes) :
    looksLikeLongAsciiToken text = (tokens text).any checkToken := by
  have hhead : (text.splitOnP fun c => !isAsciiTokenChar c).modifyHead (([] : Bytes) ++ ·) =
      text.splitOnP fun c => !isAsciiTokenChar c := by
    cases text.splitOnP fun c => !isAsciiTokenChar c <;> rfl
  rw [looksLikeLongAsciiToken, longTokenLoop_eq, hhead, tokens, List.any_filter]
  refine congrArg (List.any _) (funext fun token => ?_)
  by_cases hnil : token = []
  · rw [hnil]
    rfl
  · simp [hnil]

theorem ipv4Group_suffix {value : Nat} (h : ipv4Group value token = some rest) :
    rest <:+ token ∧ (rest.length ≠ token.length → ∃ c ∈ token, isAsciiDigit c = true) := by
  induction token generalizing value with
  | nil =>
    cases h
    exact ⟨List.suffix_refl _, fun hne => (hne rfl).elim⟩
  | cons c token ih =>
    rw [ipv4Group] at h
    split at h
    · rename_i hc
      simp only at h
      split at h
      · cases h
      · exact ⟨(ih h).1.trans (List.suffix_cons c token), fun _ => ⟨c, List.mem_cons_self, hc⟩⟩
    · cases h
      exact ⟨List.suffix_refl _, fun hne => (hne rfl).elim⟩

theorem digit_and_dot_of_ipv4 (h : isIpv4LikeAsciiToken token = true) :
    (∃ c ∈ token, isAsciiDigit c = true) ∧ 0x2e ∈ token := by
  rcases token with _ | ⟨c, token⟩
  · cases h
  rw [isIpv4LikeAsciiToken, ipv4Loop] at h
  cases hgroup : ipv4Group 0 (c :: token) with
  | none => rw [hgroup] at h; cases h
  | some rest =>
    rw [hgroup] at h
    simp only at h
    split at h
    · cases h
    rename_i hlen
    obtain ⟨hsuffix, hdigit⟩ := ipv4Group_suffix hgroup
    split at h
    · cases ‹3 = 0›
    split at h
    · exact ⟨hdigit hlen, hsuffix.mem List.mem_cons_self⟩
    · cases h

/-- A token that passes is no address; and if it is no version number, its runs of digits are short, and
it has an address in it only if it is short or has no letter. -/
theorem checkToken_false (hne : token ≠ []) (h : checkToken token = false) :
    isIpv4LikeAsciiToken token = false ∧
      (isVersionLikeAsciiToken token = false → ¬ HasRun isAsciiDigit 8 token ∧
        (ContainsQuad token → token.length < 32 ∧
          (token.length < 12 ∨ ∀ c ∈ token, isAsciiAlpha c = false))) := by
  rw [checkToken, if_neg hne] at h
  split at h
  · cases h
  rename_i hipv4
  refine ⟨Bool.eq_false_iff.mpr hipv4, fun hversion => ?_⟩
  rw [if_neg (Bool.eq_false_iff.mp hversion)] at h
  simp only at h
  split at h
  · cases h
  rename_i hrun
  split at h
  · cases h
  rename_i hmixed
  refine ⟨fun hlong => hrun ((le_runLengths_iff (by decide)).mpr hlong), ?_⟩
  rintro ⟨quad, hquad, haddress⟩
  obtain ⟨⟨c, hc, hdigit⟩, hdot⟩ := digit_and_dot_of_ipv4 haddress
  have hhasDigit : token.any isAsciiDigit = true := List.any_eq_true.mpr ⟨c, hquad.mem hc, hdigit⟩
  have hhasSymbol : (token.any fun c => c == 0x5f || c == 0x2d || c == 0x2e) = true :=
    List.any_eq_true.mpr ⟨0x2e, hquad.mem hdot, rfl⟩
  refine ⟨?_, ?_⟩
  · split_ifs at h
    omega
  · rw [hhasDigit, hhasSymbol] at hmixed
    simp only [Bool.and_true, Bool.and_eq_true, decide_eq_true_eq, List.any_eq_true, not_and_or,
      not_exists] at hmixed
    refine hmixed.imp Nat.lt_of_not_le fun halpha c hc => ?_
    exact Bool.eq_false_iff.mpr ((halpha c).resolve_left (not_not.mpr hc))

theorem of_allow_ite {p : Prop} [Decidable p] {reason : Bytes} {next : ZenzTextPrivacyDecision}
    (h : (if p then ⟨false, reason⟩ else next : ZenzTextPrivacyDecision).allow = true) :
    ¬ p ∧ next.allow = true := by
  split at h
  · cases h
  · exact ⟨‹¬ p›, h⟩

theorem longToken_of_allow_key (h : (evaluateZenzLiveKeyPrivacy text).allow = true) :
    looksLikeLongAsciiToken text = false := by
  rw [evaluateZenzLiveKeyPrivacy] at h
  obtain ⟨-, h⟩ := of_allow_ite h
  obtain ⟨-, h⟩ := of_allow_ite h
  obtain ⟨-, h⟩ := of_allow_ite h
  obtain ⟨-, h⟩ := of_allow_ite h
  obtain ⟨-, h⟩ := of_allow_ite h
  obtain ⟨-, h⟩ := of_allow_ite h
  obtain ⟨-, h⟩ := of_allow_ite h
  obtain ⟨-, h⟩ := of_allow_ite h
  obtain ⟨-, h⟩ := of_allow_ite h
  exact Bool.eq_false_iff.mpr (of_allow_ite h).1

theorem longToken_of_allow_value (h : (evaluateZenzLiveValuePrivacy text).allow = true) :
    looksLikeLongAsciiToken text = false := by
  rw [evaluateZenzLiveValuePrivacy] at h
  obtain ⟨-, h⟩ := of_allow_ite h
  obtain ⟨-, h⟩ := of_allow_ite h
  obtain ⟨-, h⟩ := of_allow_ite h
  obtain ⟨-, h⟩ := of_allow_ite h
  obtain ⟨-, h⟩ := of_allow_ite h
  obtain ⟨-, h⟩ := of_allow_ite h
  obtain ⟨-, h⟩ := of_allow_ite h
  obtain ⟨-, h⟩ := of_allow_ite h
  exact Bool.eq_false_iff.mpr (of_allow_ite h).1

end tokens

end ZenzLivePrivacy

end Mozkey.Session
