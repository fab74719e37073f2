import Mozkey.Base.SubString
import Mozkey.Composer.CharChunk

/-! The transliterators of `composer/transliterators.cc`, over the conversions of
`base/strings/japanese.cc`, whose tables are generated, and the user's character forms. -/

namespace Mozkey.Composer

open Storage Base Session

structure JapaneseUtil where
  hiraganaToKatakana : Bytes → Bytes
  katakanaToHiragana : Bytes → Bytes
  halfWidthToFullWidth : Bytes → Bytes
  fullWidthToHalfWidth : Bytes → Bytes
  halfWidthAsciiToFullWidthAscii : Bytes → Bytes
  fullWidthAsciiToHalfWidthAscii : Bytes → Bytes
  halfWidthKatakanaToFullWidthKatakana : Bytes → Bytes
  /-- `ConvertPreeditString` of the character form manager. -/
  convertPreeditString : Bytes → Bytes

/-- Both parts of the primary and of the secondary string, and whether the two strings go together in
their second parts. -/
def splitPrimaryString (position : Nat) (primary secondary : Bytes) :
    ((Bytes × Bytes) × (Bytes × Bytes)) × Bool :=
  let lhs := utf8Take position primary
  let rhs := utf8Drop position primary
  if rhs.isSuffixOf secondary then
    (((lhs, rhs), (secondary.take (secondary.length - rhs.length), rhs)), true)
  else (((lhs, rhs), (lhs, rhs)), false)

namespace JapaneseUtil

variable (util : JapaneseUtil)

def halfKatakanaToHiragana (halfKatakana : Bytes) : Bytes :=
  util.katakanaToHiragana (util.halfWidthKatakanaToFullWidthKatakana halfKatakana)

def transliterate (t12r : Transliterator) (raw converted : Bytes) : Bytes :=
  match t12r with
  | .conversionString => converted
  | .rawString => raw
  | .hiragana => util.convertPreeditString (util.halfWidthToFullWidth converted)
  | .fullKatakana =>
    util.convertPreeditString (util.halfWidthToFullWidth (util.hiraganaToKatakana converted))
  | .halfKatakana => util.fullWidthToHalfWidth (util.hiraganaToKatakana converted)
  | .halfAscii => util.fullWidthAsciiToHalfWidthAscii (if raw = [] then converted else raw)
  | .fullAscii => util.halfWidthAsciiToFullWidthAscii (if raw = [] then converted else raw)

def splitHalfKatakana (position : Nat) (raw converted : Bytes) : (Bytes × Bytes) × (Bytes × Bytes) :=
  let halfKatakana := util.transliterate .halfKatakana raw converted
  let (((convertedLhs, convertedRhs), (rawLhs, rawRhs)), result) :=
    splitPrimaryString position halfKatakana raw
  (if result then (rawLhs, rawRhs)
    else (util.halfKatakanaToHiragana rawLhs, util.halfKatakanaToHiragana rawRhs),
    (util.halfKatakanaToHiragana convertedLhs, util.halfKatakanaToHiragana convertedRhs))

/-- The parts of the raw and of the converted string. -/
def split (t12r : Transliterator) (position : Nat) (raw converted : Bytes) :
    (Bytes × Bytes) × (Bytes × Bytes) :=
  match t12r with
  | .conversionString | .hiragana | .fullKatakana =>
    (splitPrimaryString position converted raw).1.swap
  | .rawString | .halfAscii | .fullAscii => (splitPrimaryString position raw converted).1
  | .halfKatakana => util.splitHalfKatakana position raw converted

def transliterators : Transliterators where
  transliterate := util.transliterate
  split := util.split

end JapaneseUtil

def plainUtil : JapaneseUtil where
  hiraganaToKatakana := id
  katakanaToHiragana := id
  halfWidthToFullWidth := id
  fullWidthToHalfWidth := id
  halfWidthAsciiToFullWidthAscii := id
  fullWidthAsciiToHalfWidthAscii := id
  halfWidthKatakanaToFullWidthKatakana := id
  convertPreeditString := id

end Mozkey.Composer
