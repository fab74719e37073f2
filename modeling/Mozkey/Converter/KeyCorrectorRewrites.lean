import Mozkey.Converter.KeyCorrector

/-! The rewrites of the key corrector on the code points of a text.  What a rewrite reads a code point with
is a parameter: `uint16_t` as in the code, or all of it as in its comments. -/

namespace Mozkey.Converter

open Base Storage

section text

theorem utf8ToCodepoint_bytes (c : Codepoint) (rest : Bytes) :
    utf8ToCodepoint (c.bytes ++ rest) = (c.val, c.bytes.length) := by
  rw [utf8ToCodepoint, splitFirstChar32_bytes]
  simp

@[simp] theorem utf8ToCodepoint_nil : utf8ToCodepoint [] = (0, 0) := rfl

@[simp] theorem utf8ToCodepoint_text (c : Codepoint) (cs : List Codepoint) :
    utf8ToCodepoint (text (c :: cs)) = (c.val, c.bytes.length) := by
  rw [text_cons, utf8ToCodepoint_bytes]

@[simp] theorem drop_text (c : Codepoint) (cs : List Codepoint) :
    (text (c :: cs)).drop c.bytes.length = text cs := by
  rw [text_cons, List.drop_left]

@[simp] theorem text_nil : text [] = [] := rfl

theorem bytes_pos (c : Codepoint) : 0 < c.bytes.length := by
  have hsplit := splitFirstChar32_bytes c []
  rw [List.append_nil] at hsplit
  cases hbytes : c.bytes with
  | nil =>
    rw [hbytes] at hsplit
    cases hsplit
  | cons b bs => exact Nat.succ_pos _

@[simp] theorem text_eq_nil {cs : List Codepoint} : text cs = [] ↔ cs = [] := by
  constructor
  · intro h
    cases cs with
    | nil => rfl
    | cons c cs =>
      have hpos := bytes_pos c
      rw [text_cons, List.append_eq_nil_iff] at h
      rw [h.1] at hpos
      exact absurd hpos (lt_irrefl 0)
  · rintro rfl
    rfl

@[simp] theorem length_text_cons (c : Codepoint) (cs : List Codepoint) :
    (text (c :: cs)).length = c.bytes.length + (text cs).length := by
  rw [text_cons, List.length_append]

end text

/-- A rewrite of code points gives how many of them it takes, and what it puts for them. -/
abbrev CharRewrite := (first : Bool) → List Codepoint → Option (Nat × List Nat)

section chars

variable (narrow : Nat → Nat)

def charsNN : CharRewrite
  | false, c :: next :: _ =>
    if c.val = 0x3093 then (nnOutput (narrow next)).map fun output => (2, [0x3093, output]) else none
  | _, _ => none

def charsDoubleNN : CharRewrite
  | _, c :: n :: n' :: next :: _ =>
    if (c.val ≠ 0x3093 ∧ isHiragana c ∧ narrow c ≠ 0) ∧ n.val = 0x3093 ∧ n'.val = 0x3093 ∧
        next.val ≠ 0x3093 then
      if next.val ∈ [0x3042, 0x3044, 0x3046, 0x3048, 0x304a] then some (2, [narrow c])
      else some (3, [narrow c, 0x3093])
    else none
  | _, _ => none

def charsNI : CharRewrite
  | _, c :: next :: _ =>
    if c.val = 0x306b then (niOutput (narrow next)).map fun output => (2, [0x3093, output]) else none
  | _, _ => none

def charsM : CharRewrite
  | false, c :: next :: _ =>
    if (c.val = 0x006d ∨ c.val = 0xff4d) ∧ narrow next % 3 ≠ 0 ∧ 0x306f ≤ narrow next ∧
        narrow next ≤ 0x307d then
      some (2, [0x3093, narrow next])
    else none
  | _, _ => none

def charsSmallTSU : CharRewrite
  | _, c :: t :: t' :: d :: _ =>
    if (c.val ≠ 0x3063 ∧ isHiragana c ∧ narrow c ≠ 0) ∧ t.val = 0x3063 ∧ t'.val = 0x3063 ∧
        (d.val ≠ 0x3063 ∧ isHiragana d ∧ narrow d ≠ 0) then
      some (4, [narrow c, 0x3063, narrow d])
    else none
  | _, _ => none

def charsYu : CharRewrite
  | _, c :: next :: last :: _ =>
    if c.val ∈ [0x304d, 0x3057, 0x3061, 0x306b, 0x3072, 0x308a] ∧ next.val = 0x3085 ∧
        last.val ≠ 0x3046 then
      some (2, [c.val, 0x3085, 0x3046])
    else none
  | _, _ => none

/-- The rewrites, in the order in which they are tried. -/
def rewriteChars : CharRewrite := fun first cs =>
  charsDoubleNN narrow first cs <|> charsNN narrow first cs <|> charsYu first cs <|>
    charsNI narrow first cs <|> charsSmallTSU narrow first cs <|> charsM narrow first cs

end chars

section bytes

/-- The bytes that a rewrite of code points stands for. -/
def toBytes (cs : List Codepoint) (result : Nat × List Nat) : Nat × Bytes :=
  ((text (cs.take result.1)).length, result.2.flatMap Util.codepointToUtf8)

def Reads (rewrite : Rewrite) (chars : CharRewrite) : Prop :=
  ∀ keyPos cs, rewrite keyPos (text cs) = (chars (keyPos == 0) cs).map (toBytes cs)

theorem Reads.orElse {rewrite rewrite' : Rewrite} {chars chars' : CharRewrite}
    (h : Reads rewrite chars) (h' : Reads rewrite' chars') :
    Reads (fun keyPos pre => rewrite keyPos pre <|> rewrite' keyPos pre)
      (fun first cs => chars first cs <|> chars' first cs) := by
  intro keyPos cs
  dsimp only
  rw [h keyPos cs, h' keyPos cs]
  cases chars (keyPos == 0) cs <;> rfl

theorem reads_NN : Reads rewriteNN (charsNN toUint16) := by
  rintro (_ | keyPos) cs
  · rfl
  rw [rewriteNN, if_neg (Nat.succ_ne_zero keyPos)]
  rcases cs with _ | ⟨c, _ | ⟨next, cs⟩⟩
  · rfl
  · simp [charsNN]
  · by_cases hc : c.val = 0x3093
    · simp [charsNN, hc, toBytes, Function.comp_def]
    · simp [charsNN, hc]

theorem reads_NI : Reads rewriteNI (charsNI toUint16) := by
  intro keyPos cs
  rw [rewriteNI]
  rcases cs with _ | ⟨c, _ | ⟨next, cs⟩⟩
  · rfl
  · simp [charsNI]
  · by_cases hc : c.val = 0x306b
    · simp [charsNI, hc, toBytes, Function.comp_def]
    · simp [charsNI, hc]

theorem reads_M : Reads rewriteM (charsM toUint16) := by
  rintro (_ | keyPos) cs
  · rfl
  rw [rewriteM, if_neg (Nat.succ_ne_zero keyPos)]
  rcases cs with _ | ⟨c, _ | ⟨next, cs⟩⟩
  · rfl
  · simp [charsM]
  · by_cases hc : c.val = 0x006d ∨ c.val = 0xff4d
    · rw [utf8ToCodepoint_text]
      dsimp only
      rw [if_neg (by omega), drop_text, if_neg (by simp), utf8ToCodepoint_text]
      simp only [ne_eq, charsM]
      split <;> simp_all [toBytes]
    · simp_all [charsM]

theorem reads_Yu : Reads rewriteYu charsYu := by
  intro keyPos cs
  rw [rewriteYu]
  rcases cs with _ | ⟨c, _ | ⟨next, _ | ⟨last, cs⟩⟩⟩
  · rfl
  · simp [charsYu]
  · simp [charsYu]
  · by_cases hc : c.val ∈ [0x304d, 0x3057, 0x3061, 0x306b, 0x3072, 0x308a]
    · by_cases hnext : next.val = 0x3085
      · by_cases hlast : last.val = 0x3046
        · simp [charsYu, hc, hnext, hlast]
        · simp [charsYu, hc, hnext, hlast, toBytes]
      · simp [charsYu, hc, hnext]
    · simp [charsYu, hc]

@[simp] theorem matchPattern_text_cons (special p : Nat) (pattern : List Nat) (c : Codepoint)
    (cs : List Codepoint) : matchPattern special (p :: pattern) (text (c :: cs)) =
      if (p = 0 ∧ c.val ≠ special ∧ isHiragana c) ∨ (p = special ∧ c.val = special) then
        (matchPattern special pattern (text cs)).map ((c.val, c.bytes.length) :: ·)
      else none := by
  rw [matchPattern, if_neg (by simp), utf8ToCodepoint_text]
  dsimp only
  rw [drop_text]

@[simp] theorem matchPattern_nil (special p : Nat) (pattern : List Nat) :
    matchPattern special (p :: pattern) [] = none := rfl

@[simp] theorem matchPattern_end (special : Nat) (pre : Bytes) : matchPattern special [] pre = some [] :=
  rfl

theorem length_bytes_nn {c : Codepoint} (h : c.val = 0x3093) : c.bytes.length = 3 := by
  obtain rfl : c = ⟨0x3093, by decide⟩ := Fin.ext h
  decide

theorem reads_DoubleNN : Reads rewriteDoubleNN (charsDoubleNN toUint16) := by
  intro keyPos cs
  rw [rewriteDoubleNN]
  rcases cs with _ | ⟨c, _ | ⟨n, _ | ⟨n', cs⟩⟩⟩
  · rfl
  · by_cases hc : c.val ≠ 0x3093 ∧ isHiragana c = true <;> simp [charsDoubleNN, hc]
  · by_cases hc : c.val ≠ 0x3093 ∧ isHiragana c = true <;> by_cases hn : n.val = 0x3093 <;>
      simp [charsDoubleNN, hc, hn]
  · by_cases hc : c.val ≠ 0x3093 ∧ isHiragana c = true
    swap
    · rcases cs with _ | ⟨next, cs⟩ <;> simp [charsDoubleNN, hc]
      exact fun hne hhiragana => absurd ⟨hne, hhiragana⟩ hc
    by_cases hn : n.val = 0x3093
    swap
    · rcases cs with _ | ⟨next, cs⟩ <;> simp [charsDoubleNN, hc, hn]
    by_cases hn' : n'.val = 0x3093
    swap
    · rcases cs with _ | ⟨next, cs⟩ <;> simp [charsDoubleNN, hc, hn, hn']
    have hmatch : matchPattern 0x3093 [0, 0x3093, 0x3093] (text (c :: n :: n' :: cs)) =
        some [(c.val, c.bytes.length), (n.val, n.bytes.length), (n'.val, n'.bytes.length)] := by
      simp [hc, hn, hn']
    have hdrop : (text (c :: n :: n' :: cs)).drop (c.bytes.length + n.bytes.length + n'.bytes.length) =
        text cs := by
      rw [← List.drop_drop, ← List.drop_drop, drop_text, drop_text, drop_text]
    rw [hmatch]
    dsimp only
    rw [hdrop]
    have hpos : c.bytes.length ≠ 0 := Nat.pos_iff_ne_zero.mp (bytes_pos c)
    rcases cs with _ | ⟨next, cs⟩
    · simp [charsDoubleNN]
    · by_cases hzero : toUint16 c = 0
      · simp [charsDoubleNN, hzero]
      by_cases hnext : next.val = 0x3093
      · simp [charsDoubleNN, hzero, hnext]
      by_cases hvowel : next.val ∈ [0x3042, 0x3044, 0x3046, 0x3048, 0x304a]
      · simp [charsDoubleNN, hc, hn, hn', hzero, hpos, hnext, hvowel, toBytes, length_bytes_nn hn]
      · simp [charsDoubleNN, hc, hn, hn', hzero, hpos, hnext, hvowel, toBytes]
        omega

theorem reads_SmallTSU : Reads rewriteSmallTSU (charsSmallTSU toUint16) := by
  intro keyPos cs
  rw [rewriteSmallTSU]
  rcases cs with _ | ⟨c, _ | ⟨t, _ | ⟨t', _ | ⟨d, cs⟩⟩⟩⟩
  · rfl
  · by_cases hc : c.val ≠ 0x3063 ∧ isHiragana c = true <;> simp [charsSmallTSU, hc]
  · by_cases hc : c.val ≠ 0x3063 ∧ isHiragana c = true <;> by_cases ht : t.val = 0x3063 <;>
      simp [charsSmallTSU, hc, ht]
  · by_cases hc : c.val ≠ 0x3063 ∧ isHiragana c = true <;> by_cases ht : t.val = 0x3063 <;>
      by_cases ht' : t'.val = 0x3063 <;> simp [charsSmallTSU, hc, ht, ht']
  · by_cases hc : c.val ≠ 0x3063 ∧ isHiragana c = true
    swap
    · simp [charsSmallTSU, hc]
      exact fun hne hhiragana => absurd ⟨hne, hhiragana⟩ hc
    by_cases ht : t.val = 0x3063
    swap
    · simp [charsSmallTSU, hc, ht]
    by_cases ht' : t'.val = 0x3063
    swap
    · simp [charsSmallTSU, hc, ht, ht']
    by_cases hd : d.val ≠ 0x3063 ∧ isHiragana d = true
    swap
    · simp [charsSmallTSU, hc, ht, ht', hd]
      exact fun _ hne hhiragana => absurd ⟨hne, hhiragana⟩ hd
    have hmatch : matchPattern 0x3063 [0, 0x3063, 0x3063, 0] (text (c :: t :: t' :: d :: cs)) =
        some [(c.val, c.bytes.length), (t.val, t.bytes.length), (t'.val, t'.bytes.length),
          (d.val, d.bytes.length)] := by
      simp [hc, ht, ht', hd]
    rw [hmatch]
    dsimp only
    by_cases hzero : toUint16 c = 0 ∨ toUint16 d = 0
    · rw [if_pos hzero]
      rcases hzero with hzero | hzero <;> simp [charsSmallTSU, hzero]
    · rw [if_neg hzero]
      rw [not_or] at hzero
      simp [charsSmallTSU, hc, ht, ht', hd, hzero, toBytes]
      omega

theorem reads_rewrite : Reads rewrite (rewriteChars toUint16) :=
  reads_DoubleNN.orElse <| reads_NN.orElse <| reads_Yu.orElse <| reads_NI.orElse <|
    reads_SmallTSU.orElse reads_M

end bytes

section results

/-- What a rewrite takes is there and is no U+0000, and what it puts for it is no U+0000 either. -/
def TakesLetters (chars : CharRewrite) : Prop :=
  ∀ first cs n output, chars first cs = some (n, output) →
    0 < n ∧ n ≤ cs.length ∧ (∀ c ∈ cs.take n, c.val ≠ 0) ∧ output ≠ [] ∧ ∀ c ∈ output, c ≠ 0 ∧ c < 0x110000

theorem TakesLetters.orElse {chars chars' : CharRewrite} (h : TakesLetters chars)
    (h' : TakesLetters chars') : TakesLetters fun first cs => chars first cs <|> chars' first cs := by
  intro first cs n output hresult
  dsimp only at hresult
  cases hchars : chars first cs with
  | none =>
    rw [hchars] at hresult
    exact h' first cs n output hresult
  | some result =>
    rw [hchars] at hresult
    exact h first cs n output (hchars.trans hresult)

theorem nnOutput_eq_some {c output : Nat} (h : nnOutput c = some output) :
    c ≠ 0 ∧ output ≠ 0 ∧ output < 0x10000 := by
  rw [nnOutput.eq_def] at h
  split at h <;> simp_all <;> omega

theorem niOutput_eq_some {c output : Nat} (h : niOutput c = some output) :
    c ≠ 0 ∧ output ≠ 0 ∧ output < 0x10000 := by
  rw [niOutput.eq_def] at h
  split at h <;> simp_all <;> omega

theorem isHiragana_pos {c : Nat} (h : isHiragana c = true) : c ≠ 0 := by
  rintro rfl
  cases h

theorem toUint16_lt (c : Nat) : toUint16 c < 0x110000 :=
  Nat.lt_trans (Nat.mod_lt c (by decide)) (by decide)

theorem toUint16_zero : toUint16 0 = 0 := rfl

theorem takesLetters_NN : TakesLetters (charsNN toUint16) := by
  intro first cs n output h
  rw [charsNN.eq_def] at h
  split at h
  · rename_i c next cs
    split at h
    · rename_i hc
      obtain ⟨vowel, hvowel, hresult⟩ := Option.map_eq_some_iff.mp h
      cases hresult
      obtain ⟨hnext, hpos, hlt⟩ := nnOutput_eq_some hvowel
      have hne : next.val ≠ 0 := fun hzero => hnext (hzero ▸ toUint16_zero)
      simp [hpos]
      omega
    · cases h
  · cases h

theorem takesLetters_NI : TakesLetters (charsNI toUint16) := by
  intro first cs n output h
  rw [charsNI.eq_def] at h
  split at h
  · rename_i c next cs
    split at h
    · rename_i hc
      obtain ⟨letter, hletter, hresult⟩ := Option.map_eq_some_iff.mp h
      cases hresult
      obtain ⟨hnext, hpos, hlt⟩ := niOutput_eq_some hletter
      have hne : next.val ≠ 0 := fun hzero => hnext (hzero ▸ toUint16_zero)
      simp [hpos]
      omega
    · cases h
  · cases h

theorem takesLetters_M : TakesLetters (charsM toUint16) := by
  intro first cs n output h
  rw [charsM.eq_def] at h
  split at h
  · rename_i c next cs
    split at h
    · rename_i hm
      cases h
      have hlt := toUint16_lt next
      have hne : next.val ≠ 0 := by
        intro hzero
        rw [hzero, toUint16_zero] at hm
        omega
      simp
      omega
    · cases h
  · cases h

theorem takesLetters_Yu : TakesLetters charsYu := by
  intro first cs n output h
  rw [charsYu.eq_def] at h
  split at h
  · rename_i c next last cs
    split at h
    · rename_i hyu
      cases h
      have hlt := c.isLt
      have hne : c.val ≠ 0 := by
        intro hzero
        rw [hzero] at hyu
        exact absurd hyu.1 (by decide)
      simp
      omega
    · cases h
  · cases h

theorem takesLetters_DoubleNN : TakesLetters (charsDoubleNN toUint16) := by
  intro first cs n output h
  rw [charsDoubleNN.eq_def] at h
  split at h
  · rename_i c n n' next cs
    split at h
    · rename_i hn
      have hlt := toUint16_lt c
      have hc := isHiragana_pos hn.1.2.1
      split at h <;> cases h <;> simp <;> omega
    · cases h
  · cases h

theorem takesLetters_SmallTSU : TakesLetters (charsSmallTSU toUint16) := by
  intro first cs n output h
  rw [charsSmallTSU.eq_def] at h
  split at h
  · rename_i c t t' d cs
    split at h
    · rename_i ht
      cases h
      have hc := isHiragana_pos ht.1.2.1
      have hd := isHiragana_pos ht.2.2.2.2.1
      have hltC := toUint16_lt c
      have hltD := toUint16_lt d
      simp
      omega
    · cases h
  · cases h

theorem takesLetters_rewrite : TakesLetters (rewriteChars toUint16) :=
  takesLetters_DoubleNN.orElse <| takesLetters_NN.orElse <| takesLetters_Yu.orElse <|
    takesLetters_NI.orElse <| takesLetters_SmallTSU.orElse takesLetters_M

end results

end Mozkey.Converter
