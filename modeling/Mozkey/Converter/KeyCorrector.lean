import Mozkey.Base.Codepoint
import Mozkey.Converter.Lattice

/-! The key corrector of `converter/key_corrector.cc`: the key with the mistypes of romaji input corrected,
and the positions in the one that belong to positions in the other. -/

namespace Mozkey.Converter

open Base Storage

def utf8ToCodepoint (s : Bytes) : Nat × Nat :=
  match splitFirstChar32 s with
  | none => (0, 0)
  | some (c, rest) => (c, s.length - rest.length)

def toUint16 (c : Nat) : Nat := c % 2 ^ 16

def isHiragana (c : Nat) : Bool := (0x3041 ≤ c && c ≤ 0x309f) || c == 0x1b001

section rewrites

def nnOutput : Nat → Option Nat
  | 0x3042 => some 0x306a
  | 0x3044 => some 0x306b
  | 0x3046 => some 0x306c
  | 0x3048 => some 0x306d
  | 0x304a => some 0x306e
  | _ => none

def niOutput : Nat → Option Nat
  | 0x3083 => some 0x3084
  | 0x3085 => some 0x3086
  | 0x3087 => some 0x3088
  | _ => none

/-- A rewrite gives `mblen` and what it appends to the output, where it applies. -/
abbrev Rewrite := (keyPos : Nat) → (pre : Bytes) → Option (Nat × Bytes)

/-- The loops over `kPattern`, where a zero stands for a hiragana letter other than the special one: the
code points and their lengths. -/
def matchPattern (special : Nat) : (pattern : List Nat) → Bytes → Option (List (Nat × Nat))
  | [], _ => some []
  | p :: pattern, pre =>
    if pre = [] then none
    else
      let (codepoint, mblen) := utf8ToCodepoint pre
      if (p = 0 ∧ codepoint ≠ special ∧ isHiragana codepoint) ∨ (p = special ∧ codepoint = special) then
        (matchPattern special pattern (pre.drop mblen)).map ((codepoint, mblen) :: ·)
      else none

def rewriteNN : Rewrite := fun keyPos pre =>
  if keyPos = 0 then none
  else
    let (codepoint, mblen) := utf8ToCodepoint pre
    if codepoint ≠ 0x3093 then none
    else
      let pre := pre.drop mblen
      if pre = [] then none
      else
        let (nextCodepoint, mblen2) := utf8ToCodepoint pre
        (nnOutput (toUint16 nextCodepoint)).map fun outputCodepoint =>
          (mblen + mblen2, Util.codepointToUtf8 codepoint ++ Util.codepointToUtf8 outputCodepoint)

def rewriteDoubleNN : Rewrite := fun _ pre =>
  match matchPattern 0x3093 [0, 0x3093, 0x3093] pre with
  | some [(first, firstMblen), (_, mblen2), (_, mblen3)] =>
    let mblen := firstMblen + mblen2 + mblen3
    let pre := pre.drop mblen
    if pre = [] then none
    else if toUint16 first = 0 ∨ firstMblen = 0 then none
    else
      let (codepoint, _) := utf8ToCodepoint pre
      if codepoint = 0x3093 then none
      else if codepoint ∈ [0x3042, 0x3044, 0x3046, 0x3048, 0x304a] then
        -- What is left is for `rewriteNN`.
        some (firstMblen + 3, Util.codepointToUtf8 (toUint16 first))
      else some (mblen, Util.codepointToUtf8 (toUint16 first) ++ Util.codepointToUtf8 0x3093)
  | _ => none

def rewriteNI : Rewrite := fun _ pre =>
  let (codepoint, mblen) := utf8ToCodepoint pre
  if codepoint ≠ 0x306b then none
  else
    let pre := pre.drop mblen
    if pre = [] then none
    else
      let (nextCodepoint, mblen2) := utf8ToCodepoint pre
      (niOutput (toUint16 nextCodepoint)).map fun outputCodepoint =>
        (mblen + mblen2, Util.codepointToUtf8 0x3093 ++ Util.codepointToUtf8 outputCodepoint)

def rewriteM : Rewrite := fun keyPos pre =>
  if keyPos = 0 then none
  else
    let (codepoint, mblen) := utf8ToCodepoint pre
    if codepoint ≠ 0x006d ∧ codepoint ≠ 0xff4d then none
    else
      let pre := pre.drop mblen
      if pre = [] then none
      else
        let (nextCodepoint, mblen2) := utf8ToCodepoint pre
        let next := toUint16 nextCodepoint
        if next % 3 ≠ 0 ∧ 0x306f ≤ next ∧ next ≤ 0x307d then
          some (mblen + mblen2, Util.codepointToUtf8 0x3093 ++ Util.codepointToUtf8 next)
        else none

def rewriteSmallTSU : Rewrite := fun _ pre =>
  match matchPattern 0x3063 [0, 0x3063, 0x3063, 0] pre with
  | some [(first, mblen1), (_, mblen2), (_, mblen3), (last, mblen4)] =>
    if toUint16 first = 0 ∨ toUint16 last = 0 then none
    else
      some (mblen1 + mblen2 + mblen3 + mblen4, Util.codepointToUtf8 (toUint16 first) ++
        Util.codepointToUtf8 0x3063 ++ Util.codepointToUtf8 (toUint16 last))
  | _ => none

def rewriteYu : Rewrite := fun _ pre =>
  let (first, mblen) := utf8ToCodepoint pre
  if first ∉ [0x304d, 0x3057, 0x3061, 0x306b, 0x3072, 0x308a] then none
  else
    let pre := pre.drop mblen
    if pre = [] then none
    else
      let (next, mblen2) := utf8ToCodepoint pre
      if next ≠ 0x3085 then none
      else
        let pre := pre.drop mblen2
        if pre = [] then none
        else if (utf8ToCodepoint pre).1 = 0x3046 then none
        else
          some (mblen + mblen2, Util.codepointToUtf8 first ++ Util.codepointToUtf8 next ++
            Util.codepointToUtf8 0x3046)

/-- The rewrites, in the order in which they are tried. -/
def rewrite : Rewrite := fun keyPos pre =>
  rewriteDoubleNN keyPos pre <|> rewriteNN keyPos pre <|> rewriteYu keyPos pre <|>
    rewriteNI keyPos pre <|> rewriteSmallTSU keyPos pre <|> rewriteM keyPos pre

end rewrites

structure KeyCorrector where
  originalKey : Bytes
  correctedKey : Bytes := []
  /-- `alignment_` and `rev_alignment_`, with no position for `kInvalidPos`. -/
  alignment : List (Option Nat) := []
  revAlignment : List (Option Nat) := []
  deriving DecidableEq

inductive InputMode where
  | roman | kana
  deriving DecidableEq

namespace KeyCorrector

/-- What a round of the loop of `Init` adds for `mblen` bytes of the key at a position. -/
def append (pos mblen : Nat) (output : Bytes) (corrector : KeyCorrector) : KeyCorrector :=
  let orgLen := corrector.correctedKey.length
  { corrector with
    correctedKey := corrector.correctedKey ++ output
    alignment := corrector.alignment ++
      if mblen = output.length then (List.range mblen).map fun i => some (orgLen + i)
      else some orgLen :: List.replicate (mblen - 1) none
    revAlignment := corrector.revAlignment ++
      if mblen = output.length then (List.range mblen).map fun i => some (pos + i)
      else some pos :: List.replicate (output.length - 1) none }

/-- A round: a rewrite behind the history, or the next character. -/
def round (inputBegin keyPos pos : Nat) (pre : Bytes) : Nat × Bytes :=
  let copy :=
    let (codepoint, mblen) := utf8ToCodepoint pre
    (mblen, Util.codepointToUtf8 codepoint)
  if pos < inputBegin then copy else (rewrite keyPos pre).getD copy

/-- The loop of `Init`.  A round that neither reads nor writes anything is an invalid pattern. -/
def initLoop (inputBegin : Nat) : (fuel : Nat) → (keyPos pos : Nat) → (pre : Bytes) → KeyCorrector →
    Option KeyCorrector
  | _, _, _, [], corrector => some corrector
  | 0, _, _, _ :: _, _ => none
  | fuel + 1, keyPos, pos, b :: bs, corrector =>
    let (mblen, output) := round inputBegin keyPos pos (b :: bs)
    if output.length = 0 ∧ mblen = 0 then none
    else
      initLoop inputBegin fuel (keyPos + 1) (pos + mblen) ((b :: bs).drop mblen)
        (corrector.append pos mblen output)

def kMaxSize : Nat := 128

def init (key : Bytes) (mode : InputMode) (historySize : Nat) : Option KeyCorrector :=
  if mode = .kana then none
  else if key = [] ∨ kMaxSize ≤ key.length then none
  else initLoop (min key.length historySize) key.length 0 0 key { originalKey := key }

variable (corrector : KeyCorrector)

def getCorrectedPosition (originalKeyPos : Nat) : Option Nat :=
  corrector.alignment[originalKeyPos]?.join

def getOriginalPosition (correctedKeyPos : Nat) : Option Nat :=
  corrector.revAlignment[correctedKeyPos]?.join

def kInvalidPos : Nat := 2 ^ 64 - 1

def getOriginalOffset (originalKeyPos newKeyOffset : Nat) : Option Nat := do
  let correctedKeyPos ← corrector.getCorrectedPosition originalKeyPos
  let correctedKeyPos2 := (correctedKeyPos + newKeyOffset) % 2 ^ 64
  if corrector.revAlignment.length = correctedKeyPos2 then
    let originalKeyPos2 := (corrector.getOriginalPosition correctedKeyPos).getD kInvalidPos
    return (corrector.alignment.length + (2 ^ 64 - originalKeyPos2)) % 2 ^ 64
  else
    let originalKeyPos2 ← corrector.getOriginalPosition correctedKeyPos2
    if originalKeyPos ≤ originalKeyPos2 then return originalKeyPos2 - originalKeyPos else none

end KeyCorrector

end Mozkey.Converter
