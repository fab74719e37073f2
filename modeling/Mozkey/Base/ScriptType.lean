import Mozkey.Base.Util

/-! The script types of `base/util.cc`, and the decoder of `base/strings/internal/utf8_internal.cc` that
they read a text by. -/

namespace Mozkey.Base

open Storage

def kReplacementCharacter : Nat := 0xfffd

def secondByteBoundary (n : UInt8) : UInt8 × UInt8 :=
  if n < 0xc2 ∨ 0xf4 < n then (0xff, 0x00)
  else if n = 0xe0 then (0xa0, 0xbf)
  else if n = 0xed then (0x80, 0x9f)
  else if n = 0xf0 then (0x90, 0xbf)
  else if n = 0xf4 then (0x80, 0x8f)
  else (0x80, 0xbf)

def isValidSecondByte (leadingByte secondByte : UInt8) : Bool :=
  (secondByteBoundary leadingByte).1 ≤ secondByte && secondByte ≤ (secondByteBoundary leadingByte).2

def handleBufferTooShort (leadingByte : UInt8) : Bytes → Nat
  | [] => 1
  | b :: bs => if isValidSecondByte leadingByte b then 2 + (bs.takeWhile isUtf8TrailingByte).length else 1

def appendTrailingByte (base : Nat) (byte : UInt8) : Nat := (base <<< 6) + (byte &&& 0x3f).toNat

/-- The loop of `DecodeSequence` over the third and the fourth byte. -/
def decodeTrailing : (i base : Nat) → Bytes → Nat × Nat
  | i, base, [] => (base, i)
  | i, base, b :: bs =>
    if isUtf8TrailingByte b then decodeTrailing (i + 1) (appendTrailingByte base b) bs
    else (kReplacementCharacter, i)

def decodeSequence (needed : Nat) (mask leadingByte : UInt8) : Bytes → Nat × Nat
  | [] => (kReplacementCharacter, 1)
  | b :: bs =>
    let isValid := if needed = 2 then isUtf8TrailingByte b else isValidSecondByte leadingByte b
    if isValid then
      decodeTrailing 2 (appendTrailingByte (leadingByte &&& mask).toNat b) (bs.take (needed - 2))
    else (kReplacementCharacter, 1)

/-- `Decode` of a text that is not empty: the code point and the number of bytes seen. -/
def decode (leadingByte : UInt8) (bs : Bytes) : Nat × Nat :=
  let needed := oneCharLen leadingByte
  if leadingByte < 0x80 then (leadingByte.toNat, 1)
  else if bs.length + 1 < needed then (kReplacementCharacter, handleBufferTooShort leadingByte bs)
  else if needed = 3 then decodeSequence 3 0x0f leadingByte bs
  else if needed = 2 then decodeSequence 2 0x1f leadingByte bs
  else if needed = 4 then decodeSequence 4 0x07 leadingByte bs
  else (kReplacementCharacter, 1)

def utf8AsChars32Loop : Nat → Bytes → List Nat
  | 0, _ => []
  | _, [] => []
  | fuel + 1, b :: bs =>
    let (codepoint, bytesSeen) := decode b bs
    codepoint :: utf8AsChars32Loop fuel ((b :: bs).drop bytesSeen)

def utf8AsChars32 (s : Bytes) : List Nat := utf8AsChars32Loop s.length s

inductive ScriptType where
  | unknownScript
  | katakana
  | hiragana
  | kanji
  | number
  | alphabet
  | emoji
  deriving DecidableEq

namespace Util

def inRange (w a b : Nat) : Bool := a ≤ w && w ≤ b

def getScriptType (codepoint : Nat) : ScriptType :=
  if inRange codepoint 0x0030 0x0039 || inRange codepoint 0xff10 0xff19 then .number
  else if inRange codepoint 0x0041 0x005a || inRange codepoint 0x0061 0x007a ||
      inRange codepoint 0xff21 0xff3a || inRange codepoint 0xff41 0xff5a then .alphabet
  else if codepoint == 0x3005 || inRange codepoint 0x3400 0x4dbf || inRange codepoint 0x4e00 0x9fff ||
      inRange codepoint 0xf900 0xfaff || inRange codepoint 0x20000 0x2a6df ||
      inRange codepoint 0x2a700 0x2b73f || inRange codepoint 0x2b740 0x2b81f ||
      inRange codepoint 0x2f800 0x2fa1f then .kanji
  else if inRange codepoint 0x3041 0x309f || codepoint == 0x1b001 then .hiragana
  else if inRange codepoint 0x30a1 0x30ff || inRange codepoint 0x31f0 0x31ff ||
      inRange codepoint 0xff65 0xff9f || codepoint == 0x1b000 then .katakana
  else if inRange codepoint 0x02300 0x023f3 || inRange codepoint 0x02700 0x027bf ||
      inRange codepoint 0x1f000 0x1f02f || inRange codepoint 0x1f030 0x1f09f ||
      inRange codepoint 0x1f0a0 0x1f0ff || inRange codepoint 0x1f100 0x1f2ff ||
      inRange codepoint 0x1f200 0x1f2ff || inRange codepoint 0x1f300 0x1f5ff ||
      inRange codepoint 0x1f600 0x1f64f || inRange codepoint 0x1f680 0x1f6ff ||
      inRange codepoint 0x1f700 0x1f77f || codepoint == 0x26ce then .emoji
  else .unknownScript

/-- The body of the loop of `GetScriptTypeInternal`, over the types that the bits of `bs` stand for. -/
def restrictScriptTypes (ignoreSymbols : Bool) (bs : List ScriptType) (codepoint : Nat) : List ScriptType :=
  if codepoint = 0x30fc ∨ codepoint = 0x30fb ∨ (0x3099 ≤ codepoint ∧ codepoint ≤ 0x309c) then
    bs.filter fun t => t == .hiragana || t == .katakana
  else if (codepoint = 0xff0e ∨ codepoint = 0x2e) ∧ bs = [.number] then bs
  else
    let type := getScriptType codepoint
    if ignoreSymbols ∧ type = .unknownScript then bs else bs.filter (· == type)

def getScriptTypeInternal (s : Bytes) (ignoreSymbols : Bool) : ScriptType :=
  match (utf8AsChars32 s).foldl (restrictScriptTypes ignoreSymbols)
    [.unknownScript, .katakana, .hiragana, .kanji, .number, .alphabet, .emoji] with
  | [type] => type
  | _ => .unknownScript

def getScriptTypeOfText (s : Bytes) : ScriptType := getScriptTypeInternal s false

def containsScriptType (s : Bytes) (type : ScriptType) : Bool :=
  (utf8ToUtf32 s).any fun codepoint => getScriptType codepoint = type

end Util

end Mozkey.Base
