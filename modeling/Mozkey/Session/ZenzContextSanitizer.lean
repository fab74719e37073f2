import Mozkey.Lib.ConsecutiveRuns
import Mozkey.Session.ZenzOutputValidator

/-! `ZenzContextSanitizer` of `session/zenz_context_sanitizer.cc`: the end of a context, which is
classified after it has been cut, and what that says about the runs of the whole context. -/

namespace Mozkey.Session

open Storage Base Lib ZenzOutputValidator ZenzFeedbackStore

namespace ZenzContextSanitizer

def isAsciiAlpha (c : UInt8) : Bool := (0x61 ≤ c && c ≤ 0x7a) || (0x41 ≤ c && c ≤ 0x5a)

def isAsciiDigit (c : UInt8) : Bool := 0x30 ≤ c && c ≤ 0x39

def isAsciiAlphaNum (c : UInt8) : Bool := isAsciiAlpha c || isAsciiDigit c

def isAsciiVisible (c : UInt8) : Bool := 0x21 ≤ c && c ≤ 0x7e

def isLikelyJapaneseUtf8Lead (c : UInt8) : Bool := 0x80 ≤ c

def truncateRightByChars (text : Bytes) (maxChars : Nat) : Bytes :=
  if maxChars = 0 ∨ text = [] then []
  else
    let len := charsLen text
    if len ≤ maxChars then text else utf8SubString text (len - maxChars) maxChars

def containsLongAsciiRun (text : Bytes) : Bool := runScan isAsciiVisible 8 0 text

def containsLongDigitRun (text : Bytes) : Bool := runScan isAsciiDigit 4 0 text

def asciiStrToLower (text : Bytes) : Bytes :=
  text.map fun c => if 0x41 ≤ c ∧ c ≤ 0x5a then c + 0x20 else c

def containsSensitiveAsciiPattern (text : Bytes) : Bool :=
  let lower := asciiStrToLower text
  if strContains lower "password" || strContains lower "passwd" || strContains lower "pwd" ||
      strContains lower "token" || strContains lower "secret" || strContains lower "apikey" ||
      strContains lower "api_key" || strContains lower "authorization" ||
      strContains lower "bearer " || strContains lower "cookie" ||
      strContains lower "sessionid" || strContains lower "session_id" then true
  else if strContains lower "http://" || strContains lower "https://" ||
      strContains lower "www." || strContains lower "mailto:" then true
  else if strContains lower "@" && strContains lower "." then true
  else if strContains lower "c:\\" || strContains lower "\\users\\" ||
      strContains lower "/home/" || strContains lower "/users/" then true
  else if strContains lower "sk-" || strContains lower "pk_" || strContains lower "ghp_" ||
      strContains lower "xoxb-" then true
  else containsLongAsciiRun text || containsLongDigitRun text

def looksMostlyJapaneseContext (text : Bytes) : Bool :=
  if text = [] then false
  else
    let nonAscii := text.countP isLikelyJapaneseUtf8Lead
    let asciiAlnum := text.countP fun c => !isLikelyJapaneseUtf8Lead c && isAsciiAlphaNum c
    let asciiVisible := text.countP fun c => !isLikelyJapaneseUtf8Lead c && isAsciiVisible c
    nonAscii > 0 && nonAscii ≥ asciiAlnum * 2 && asciiAlnum ≤ 4 && asciiVisible ≤ nonAscii

def classify (text : Bytes) : Bytes :=
  if text = [] then str "empty"
  else if containsSensitiveAsciiPattern text then str "sensitive_like"
  else
    let hasNonAscii := text.any isLikelyJapaneseUtf8Lead
    let hasDigit := text.any isAsciiDigit
    let hasAsciiAlnum := text.any isAsciiAlphaNum
    let hasSymbol := text.any fun c => isAsciiVisible c && !isAsciiAlphaNum c
    if hasNonAscii && !hasAsciiAlnum && !hasSymbol then str "japanese_only"
    else if hasNonAscii && !hasAsciiAlnum then str "japanese_with_punctuation"
    else if hasNonAscii && hasAsciiAlnum then str "mixed_japanese_ascii"
    else if hasAsciiAlnum || hasDigit then str "ascii_or_digit"
    else str "symbol_or_other"

structure ZenzContextSanitizationResult where
  sanitizedContext : Bytes := []
  contextClass : Bytes := []
  allowedForPrompt : Bool := false
  allowedForLearning : Bool := false
  reason : Bytes := []
  deriving DecidableEq

def sanitizeForZenz (rawContext : Bytes) (maxChars : Nat) : ZenzContextSanitizationResult :=
  if rawContext = [] ∨ maxChars = 0 then
    { contextClass := str "empty", reason := str "empty_context" }
  else
    let truncated := truncateRightByChars rawContext maxChars
    let contextClass := classify truncated
    if contextClass = str "sensitive_like" then
      { contextClass, reason := str "sensitive_context_rejected" }
    else if ¬ looksMostlyJapaneseContext truncated then
      { contextClass, reason := str "non_japanese_context_rejected" }
    else
      { contextClass, sanitizedContext := truncated, allowedForPrompt := true
        reason := str "context_allowed" }

variable {rawContext text : Bytes} {cs : List Char} {maxChars : Nat}

theorem truncateRightByChars_utf8 (hmax : 0 < maxChars) (cs : List Char) :
    truncateRightByChars (utf8 cs) maxChars = utf8 (cs.drop (cs.length - maxChars)) := by
  rw [truncateRightByChars]
  split
  · rename_i hnil
    have hcs : cs = [] := by
      have hlen := congrArg charsLen (hnil.resolve_left hmax.ne')
      rw [charsLen_utf8, charsLen_nil] at hlen
      exact List.eq_nil_of_length_eq_zero hlen
    rw [hcs, List.drop_nil]
    rfl
  · simp only [charsLen_utf8]
    split
    · rename_i hle
      rw [Nat.sub_eq_zero_of_le hle, List.drop_zero]
    · rw [utf8SubString_utf8, List.take_of_length_le]
      rw [List.length_drop]
      omega

theorem sensitive_of_longRun (h : HasRun isAsciiVisible 8 text ∨ HasRun isAsciiDigit 4 text) :
    containsSensitiveAsciiPattern text = true := by
  have hruns : (containsLongAsciiRun text || containsLongDigitRun text) = true := by
    rw [Bool.or_eq_true]
    exact h.imp (runScan_iff (by decide)).mpr (runScan_iff (by decide)).mpr
  rw [containsSensitiveAsciiPattern]
  split_ifs
  all_goals first | rfl | exact hruns

theorem allowed_spec (h : (sanitizeForZenz rawContext maxChars).allowedForPrompt = true) :
    0 < maxChars ∧
      (sanitizeForZenz rawContext maxChars).sanitizedContext =
        truncateRightByChars rawContext maxChars ∧
      ¬ HasRun isAsciiVisible 8 (truncateRightByChars rawContext maxChars) ∧
      ¬ HasRun isAsciiDigit 4 (truncateRightByChars rawContext maxChars) := by
  rw [sanitizeForZenz] at h ⊢
  split at h
  · cases h
  rename_i hraw
  simp only at h
  split at h
  · cases h
  rename_i hclass
  split at h
  · cases h
  rename_i hjapanese
  rw [if_neg hraw]
  simp only [if_neg hclass, if_neg hjapanese]
  have hne : truncateRightByChars rawContext maxChars ≠ [] := by
    intro hnil
    rw [hnil] at hjapanese
    exact hjapanese Bool.false_ne_true
  rw [not_or] at hraw
  refine ⟨Nat.pos_of_ne_zero hraw.2, trivial, ?_⟩
  rw [← not_or]
  intro hlong
  refine hclass ?_
  rw [classify, if_neg hne, if_pos (sensitive_of_longRun hlong)]

theorem run_of_not_hasRun {p : UInt8 → Bool} {k : Nat} {cut kept before run after : Bytes}
    (hshort : ¬ HasRun p k kept) (hrun : cut ++ kept = before ++ run ++ after)
    (hall : ∀ c ∈ run, p c = true) (hreach : after.length < kept.length) :
    min run.length (kept.length - after.length) < k := by
  have hsuffix : after <:+ kept :=
    List.suffix_of_suffix_length_le ⟨before ++ run, hrun.symm⟩ (List.suffix_append cut kept)
      (Nat.le_of_lt hreach)
  obtain ⟨mid, rfl⟩ := hsuffix
  have hmid : cut ++ mid = before ++ run := by
    rw [← List.append_assoc] at hrun
    exact List.append_cancel_right hrun
  rw [List.length_append, Nat.add_sub_cancel]
  by_contra hlong
  refine hshort ?_
  rcases Nat.le_total run.length mid.length with hle | hle
  · obtain ⟨rest, rfl⟩ := List.suffix_of_suffix_length_le ⟨before, hmid.symm⟩
      (List.suffix_append cut mid) hle
    exact ⟨run, ⟨rest, after, rfl⟩, by omega, hall⟩
  · obtain ⟨rest, hrest⟩ := List.suffix_of_suffix_length_le (List.suffix_append cut mid)
      ⟨before, hmid.symm⟩ hle
    refine ⟨mid, (List.prefix_append mid after).isInfix, by omega, fun c hc => hall c ?_⟩
    rw [← hrest]
    exact List.mem_append_right _ hc

/-- An allowed context is the end of the whole one, and a run of four digits or of eight visible
characters that reaches into it begins before it and leaves fewer of them in it. -/
theorem sanitizeForZenz_spec
    (h : (sanitizeForZenz (utf8 cs) maxChars).allowedForPrompt = true) :
    let kept := (sanitizeForZenz (utf8 cs) maxChars).sanitizedContext
    (∃ cut ends : List Char, cs = cut ++ ends ∧ ends.length = min maxChars cs.length ∧
      kept = utf8 ends) ∧
    ∀ before run after, utf8 cs = before ++ run ++ after → after.length < kept.length →
      ((∀ c ∈ run, isAsciiDigit c = true) → 4 ≤ run.length →
        kept.length < run.length + after.length ∧ kept.length < after.length + 4) ∧
      ((∀ c ∈ run, isAsciiVisible c = true) → 8 ≤ run.length →
        kept.length < run.length + after.length ∧ kept.length < after.length + 8) := by
  obtain ⟨hmax, hkept, hvisible, hdigit⟩ := allowed_spec h
  intro kept
  have heq : kept = utf8 (cs.drop (cs.length - maxChars)) :=
    hkept.trans (truncateRightByChars_utf8 hmax cs)
  replace hvisible : ¬ HasRun isAsciiVisible 8 kept := by rwa [← hkept] at hvisible
  replace hdigit : ¬ HasRun isAsciiDigit 4 kept := by rwa [← hkept] at hdigit
  refine ⟨⟨cs.take (cs.length - maxChars), cs.drop (cs.length - maxChars),
    (List.take_append_drop _ _).symm, by rw [List.length_drop]; omega, heq⟩,
    fun before run after hrun hreach => ?_⟩
  have hcut : utf8 (cs.take (cs.length - maxChars)) ++ kept = before ++ run ++ after := by
    rw [heq, ← hrun, ← utf8_append, List.take_append_drop]
  constructor
  · intro hall hlong
    have hmin := run_of_not_hasRun hdigit hcut hall hreach
    omega
  · intro hall hlong
    have hmin := run_of_not_hasRun hvisible hcut hall hreach
    omega

/-- A context of kana with one digit in front. -/
theorem sanitizeForZenz_spec_kana :
    let kept := (sanitizeForZenz (utf8 ['1', 'あ', 'い']) 3).sanitizedContext
    (∃ cut ends : List Char, ['1', 'あ', 'い'] = cut ++ ends ∧
      ends.length = min 3 ['1', 'あ', 'い'].length ∧ kept = utf8 ends) ∧
    ∀ before run after, utf8 ['1', 'あ', 'い'] = before ++ run ++ after →
      after.length < kept.length →
      ((∀ c ∈ run, isAsciiDigit c = true) → 4 ≤ run.length →
        kept.length < run.length + after.length ∧ kept.length < after.length + 4) ∧
      ((∀ c ∈ run, isAsciiVisible c = true) → 8 ≤ run.length →
        kept.length < run.length + after.length ∧ kept.length < after.length + 8) :=
  @sanitizeForZenz_spec ['1', 'あ', 'い'] 3 (by decide +kernel)

/-- The last of four digits, with the kana behind it, is allowed. -/
theorem sanitizeForZenz_cuts_run :
    utf8 ['1', '2', '3', '4', 'あ', 'い', 'う'] =
        [] ++ [0x31, 0x32, 0x33, 0x34] ++ utf8 ['あ', 'い', 'う'] ∧
      (sanitizeForZenz (utf8 ['1', '2', '3', '4', 'あ', 'い', 'う']) 4).allowedForPrompt = true ∧
      (sanitizeForZenz (utf8 ['1', '2', '3', '4', 'あ', 'い', 'う']) 4).sanitizedContext =
        [0x34] ++ utf8 ['あ', 'い', 'う'] := by
  decide +kernel

end ZenzContextSanitizer

end Mozkey.Session
