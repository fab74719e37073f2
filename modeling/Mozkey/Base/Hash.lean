import Mathlib
import Mozkey.Converter.Lattice

/-! The legacy fingerprint of `base/hash.cc`, for a build whose `char` is unsigned, as the build
files ask for. -/

namespace Mozkey.Base

open Converter (Bytes)

def kFingerPrintSeed0 : UInt32 := 0x6d6f

def kFingerPrintSeed1 : UInt32 := 0x7a63

def toUint32 (a b c d : UInt8) : UInt32 :=
  a.toUInt32 + (b.toUInt32 <<< 8) + (c.toUInt32 <<< 16) + (d.toUInt32 <<< 24)

def mix (a b c : UInt32) : UInt32 × UInt32 × UInt32 :=
  let a := (a - b - c) ^^^ (c >>> 13)
  let b := (b - c - a) ^^^ (a <<< 8)
  let c := (c - a - b) ^^^ (b >>> 13)
  let a := (a - b - c) ^^^ (c >>> 12)
  let b := (b - c - a) ^^^ (a <<< 16)
  let c := (c - a - b) ^^^ (b >>> 5)
  let a := (a - b - c) ^^^ (c >>> 3)
  let b := (b - c - a) ^^^ (a <<< 10)
  let c := (c - a - b) ^^^ (b >>> 15)
  (a, b, c)

/-- The loop over the blocks of twelve bytes, then the bytes that are left; they leave the lowest
byte of `c` to the length. -/
def fingerprintLoop (strLen : UInt32) : Bytes → UInt32 → UInt32 → UInt32 → UInt32
  | b0 :: b1 :: b2 :: b3 :: b4 :: b5 :: b6 :: b7 :: b8 :: b9 :: b10 :: b11 :: str, a, b, c =>
    let (a, b, c) :=
      mix (a + toUint32 b0 b1 b2 b3) (b + toUint32 b4 b5 b6 b7) (c + toUint32 b8 b9 b10 b11)
    fingerprintLoop strLen str a b c
  | str, a, b, c =>
    let byte (i : Nat) : UInt8 := str.getD i 0
    (mix (a + toUint32 (byte 0) (byte 1) (byte 2) (byte 3)) (b + toUint32 (byte 4) (byte 5) (byte 6) (byte 7))
      (c + strLen + toUint32 0 (byte 8) (byte 9) (byte 10))).2.2

def legacyFingerprint32WithSeed (str : Bytes) (seed : UInt32) : UInt32 :=
  fingerprintLoop (UInt32.ofNat str.length) str 0x9e3779b9 0x9e3779b9 seed

def legacyFingerprintWithSeed (str : Bytes) (seed : UInt32) : UInt64 :=
  let hi := legacyFingerprint32WithSeed str seed
  let lo := legacyFingerprint32WithSeed str kFingerPrintSeed1
  let result := hi.toUInt64 <<< 32 ||| lo.toUInt64
  if hi = 0 ∧ lo < 2 then result ^^^ 0x130f9bef94a0a928 else result

def legacyFingerprint (str : Bytes) : UInt64 := legacyFingerprintWithSeed str kFingerPrintSeed0

example : legacyFingerprint [103, 111, 111, 103, 108, 101] = 0x56d4ad5eafa6beed := by
  decide +kernel

end Mozkey.Base
