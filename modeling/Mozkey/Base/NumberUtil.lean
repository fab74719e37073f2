import Mathlib

/-! `NumberUtil` of `base/number_util.cc`: how `ArabicToKanji` writes a number with kanji numerals and
how `NormalizeNumbers` reads a sequence of numerals.  A text is the list of its characters. -/

namespace Mozkey.Base.NumberUtil

abbrev Text := List Char

inductive Style where
  | numberArabicAndKanjiHalfwidth
  | numberArabicAndKanjiFullwidth
  | numberKanji
  | numberOldKanji
  deriving DecidableEq

structure NumberString where
  value : Text
  description : String
  style : Style
  deriving DecidableEq

structure NumberStringVariation where
  digits : List Text
  description : String
  style : Style
  deriving DecidableEq

def kNumKanjiDigits : List Text :=
  [['〇'], ['一'], ['二'], ['三'], ['四'], ['五'], ['六'], ['七'], ['八'], ['九'], []]

def kNumKanjiOldDigits : List Text :=
  [[], ['壱'], ['弐'], ['参'], ['四'], ['五'], ['六'], ['七'], ['八'], ['九']]

def kNumFullWidthDigits : List Text :=
  [['０'], ['１'], ['２'], ['３'], ['４'], ['５'], ['６'], ['７'], ['８'], ['９'], []]

def kNumHalfWidthDigits : List Text :=
  [['0'], ['1'], ['2'], ['3'], ['4'], ['5'], ['6'], ['7'], ['8'], ['9'], []]

def kNumKanjiRanks : List Text := [[], [], ['十'], ['百'], ['千']]

def kNumKanjiBiggerRanks : List Text := [[], ['万'], ['億'], ['兆'], ['京']]

def kNumKanjiOldRanks : List Text := [[], [], ['拾'], ['百'], ['阡']]

def kNumKanjiBiggerOldRanks : List Text := [[], ['萬'], ['億'], ['兆'], ['京']]

def kKanjiVariations : List NumberStringVariation :=
  [{ digits := kNumHalfWidthDigits, description := "数字", style := .numberArabicAndKanjiHalfwidth },
   { digits := kNumFullWidthDigits, description := "数字", style := .numberArabicAndKanjiFullwidth },
   { digits := kNumKanjiDigits, description := "漢数字", style := .numberKanji },
   { digits := kNumKanjiOldDigits, description := "大字", style := .numberOldKanji }]

/-- The two styles that keep arabic digits below the big ranks. -/
def Style.isArabicAndKanji (style : Style) : Bool :=
  style == .numberArabicAndKanjiHalfwidth || style == .numberArabicAndKanjiFullwidth

def isAsciiDigit (c : Char) : Bool := '0'.toNat ≤ c.toNat && c.toNat ≤ '9'.toNat

def isDecimalInteger (str : Text) : Bool := !str.isEmpty && str.all isAsciiDigit

def digitOf (c : Char) : Nat := c.toNat - '0'.toNat

def kDigitsInBigRank : Nat := 4

/-- The inner loop of `ArabicToKanji` over a segment, from its digit `i` on. -/
def segmentLoop (variation : NumberStringVariation) (ranks : List Text) :
    (i : Nat) → (leading : Bool) → Text → Text
  | _, _, [] => []
  | i, leading, c :: segment =>
    if leading && c == '0' then segmentLoop variation ranks (i + 1) leading segment
    else
      let digit := variation.digits.getD (digitOf c) []
      let added :=
        if variation.style.isArabicAndKanji then digit
        else if c == '0' then []
        else
          -- In "大字" style, "壱" is also required on every rank.
          (if variation.style == .numberOldKanji || i == kDigitsInBigRank - 1 || c != '1' then digit
            else []) ++ ranks.getD (kDigitsInBigRank - i) []
      added ++ segmentLoop variation ranks (i + 1) false segment

/-- The loop over the segments, of which there are `rank` left; the lowest one is the first. -/
def rankLoop (variation : NumberStringVariation) (ranks biggerRanks : List Text)
    (rankedNumbers : List Text) : (rank : Nat) → Text
  | 0 => []
  | rank + 1 =>
    let segmentResult := segmentLoop variation ranks 0 true (rankedNumbers.getD rank [])
    (if segmentResult.isEmpty then [] else segmentResult ++ biggerRanks.getD rank []) ++
      rankLoop variation ranks biggerRanks rankedNumbers rank

def replaceOldTwoTen : Text → Text
  | '弐' :: '拾' :: rest => '廿' :: replaceOldTwoTen rest
  | c :: rest => c :: replaceOldTwoTen rest
  | [] => []

/-- The input is cut into segments of `kDigitsInBigRank` digits from its end. -/
def rankedNumbers : (size : Nat) → Text → List Text
  | 0, _ => []
  | size + 1, input =>
    input.drop (input.length - kDigitsInBigRank) ::
      rankedNumbers size (input.take (input.length - kDigitsInBigRank))

def variationStrings (input : Text) (rankedNumbers : List Text)
    (variation : NumberStringVariation) : List NumberString :=
  if rankedNumbers.length == 1 && variation.style.isArabicAndKanji then []
  else
    let old := variation.style == .numberOldKanji
    let ranks := if old then kNumKanjiOldRanks else kNumKanjiRanks
    let biggerRanks := if old then kNumKanjiBiggerOldRanks else kNumKanjiBiggerRanks
    let result := rankLoop variation ranks biggerRanks rankedNumbers rankedNumbers.length
    let string value : NumberString :=
      { value, description := variation.description, style := variation.style }
    let special := if !old then [] else
      (if replaceOldTwoTen result == result then [] else [string (replaceOldTwoTen result)]) ++
        (if input == ['0', '0', '1', '0'] then [string ['拾']] else []) ++
        (if input == ['1', '0', '0', '0'] then [string ['阡']] else [])
    string result :: special

/-- `ArabicToKanji`: the strings that it adds, or nothing where it returns false. -/
def arabicToKanji (inputNum : Text) : Option (List NumberString) :=
  if !isDecimalInteger inputNum then none
  else if inputNum.all (· == '0') then
    some [{ value := ['零'], description := "大字", style := .numberOldKanji }]
  else if kNumKanjiBiggerRanks.length * kDigitsInBigRank < inputNum.length then none
  else
    let filledZeroNum := (kDigitsInBigRank - inputNum.length % kDigitsInBigRank) % kDigitsInBigRank
    let input := List.replicate filledZeroNum '0' ++ inputNum
    let ranked := rankedNumbers (input.length / kDigitsInBigRank) input
    some (kKanjiVariations.flatMap (variationStrings input ranked))

def kanjiNumberTable : List (Char × Nat) :=
  [('零', 0), ('一', 1), ('二', 2), ('三', 3), ('四', 4), ('五', 5), ('六', 6), ('七', 7), ('八', 8),
   ('九', 9), ('十', 10), ('百', 100), ('千', 1000), ('万', 10000), ('億', 100000000),
   ('兆', 1000000000000), ('京', 10000000000000000),
   ('0', 0), ('1', 1), ('2', 2), ('3', 3), ('4', 4), ('5', 5), ('6', 6), ('7', 7), ('8', 8), ('9', 9),
   ('０', 0), ('１', 1), ('２', 2), ('３', 3), ('４', 4), ('５', 5), ('６', 6), ('７', 7), ('８', 8),
   ('９', 9), ('壱', 1), ('弐', 2), ('参', 3), ('拾', 10), ('廿', 20), ('卅', 30), ('卌', 40)]

/-- The number that `KanjiNumberToArabicNumber` gives for a character, if it is one. -/
def kanjiNumberToArabicNumber (c : Char) : Option Nat := kanjiNumberTable.lookup c

/-- `*output = arg1 + arg2` and `*output = arg1 * arg2`, unless they overflow. -/
def addAndCheckOverflow (arg1 arg2 : Nat) : Option Nat :=
  if arg2 > 2 ^ 64 - 1 - arg1 then none else some (arg1 + arg2)

def multiplyAndCheckOverflow (arg1 arg2 : Nat) : Option Nat :=
  if arg1 ≠ 0 ∧ arg2 > (2 ^ 64 - 1) / arg1 then none else some (arg1 * arg2)

/-- `ReduceLeadingNumbersAsBase10System`, with the digits that are read already: the output and what
is left of the sequence. -/
def reduceLeadingNumbersAsBase10System : (output : Nat) → List Nat → Option (Nat × List Nat)
  | output, [] => some (output, [])
  | output, n :: numbers =>
    if n ≥ 10 then some (output, n :: numbers)
    else do
      let output ← multiplyAndCheckOverflow output 10
      let output ← addAndCheckOverflow output n
      reduceLeadingNumbersAsBase10System output numbers

def interpretNumbersAsBase10System (numbers : List Nat) : Option Nat :=
  match reduceLeadingNumbersAsBase10System 0 numbers with
  | some (output, []) => some output
  | _ => none

/-- The reducers give their number, if they succeed, and the iterator in either case. -/
def reduceOnesDigit : List Nat → Option Nat × List Nat
  | [] => (none, [])
  | n :: numbers => if n ≥ 10 then (none, n :: numbers) else (some n, numbers)

def reduceDigits (expectedBase : Nat) : List Nat → Option Nat × List Nat
  | [] => (none, [])
  | leadingNumber :: numbers =>
    if leadingNumber < 10 then
      match numbers with
      | [] => (none, [leadingNumber])
      | nextNumber :: rest =>
        if nextNumber < 10 then
          match reduceLeadingNumbersAsBase10System 0 (leadingNumber :: nextNumber :: rest) with
          | none => (none, [])
          | some (num, begin) =>
            if num ≥ expectedBase * 10 ∨ begin.head?.any (· < 10000) then
              (none, [])  -- Force to ignore the rest of the sequence.
            else (some num, begin)
        else if nextNumber ≠ expectedBase ∨ leadingNumber = 1 ∧ expectedBase ≠ 1000 then
          (none, leadingNumber :: nextNumber :: rest)
        else (some (leadingNumber * expectedBase), rest)
    else if leadingNumber = expectedBase ∨ expectedBase = 10 ∧ leadingNumber = 20 then
      (some leadingNumber, numbers)
    else (none, leadingNumber :: numbers)

def reduceDigitsHelper (expectedBase : Nat) (begin : List Nat) : Option Nat × List Nat :=
  reduceDigits expectedBase (begin.dropWhile (· == 0))

/-- A stage of `ReduceNumberLessThan10000`: the number, the success and the iterator. -/
def reduceStage (reduce : List Nat → Option Nat × List Nat) :
    Nat × Bool × List Nat → Nat × Bool × List Nat
  | (num, success, begin) =>
    match reduce begin with
    | (some n, begin) => (num + n, true, begin)
    | (none, begin) => (num, success, begin)

def reduceNumberLessThan10000 (begin : List Nat) : Option Nat × List Nat :=
  let (num, success, begin) :=
    reduceStage reduceOnesDigit <| reduceStage (reduceDigitsHelper 10) <|
      reduceStage (reduceDigitsHelper 100) <| reduceStage (reduceDigitsHelper 1000) (0, false, begin)
  (if success && begin.head?.all (· ≥ 10000) then some num else none, begin)

/-- The loop of `InterpretNumbersInJapaneseWay`, which takes a number from the sequence each time. -/
def interpretLoop : (fuel lastBase output : Nat) → List Nat → Option Nat
  | 0, _, _, _ => none
  | fuel + 1, lastBase, output, begin =>
    match reduceNumberLessThan10000 begin with
    | (none, _) => none
    | (some coef, []) => addAndCheckOverflow output coef
    | (some coef, base :: begin) =>
      if base ≥ lastBase then none
      else do
        let delta ← multiplyAndCheckOverflow coef base
        let output ← addAndCheckOverflow output delta
        if begin.isEmpty then some output else interpretLoop fuel base output begin

def interpretNumbersInJapaneseWay (numbers : List Nat) : Option Nat :=
  interpretLoop (numbers.length + 1) (2 ^ 64 - 1) 0 numbers

def normalizeNumbersHelper (numbers : List Nat) : Option Nat := do
  let max ← numbers.max?
  if max < 10 then interpretNumbersAsBase10System numbers
  else interpretNumbersInJapaneseWay numbers

def arabicText (trimLeadingZeros : Bool) (numbers : List Nat) (n : Nat) : Text :=
  let numZeros := (numbers.takeWhile (· == 0)).length
  let numZeros := if numZeros = numbers.length then numZeros - 1 else numZeros
  (if trimLeadingZeros then [] else List.replicate numZeros '0') ++ Nat.toDigits 10 n

/-- The kanji that stands for a character in `kanji_output`. -/
def kanjiText (c : Char) : Text :=
  if isAsciiDigit c then kNumKanjiDigits.getD (digitOf c) []
  else if '０'.toNat ≤ c.toNat ∧ c.toNat ≤ '９'.toNat then
    kNumKanjiDigits.getD (c.toNat - '０'.toNat) []
  else [c]

/-- `NormalizeNumbers`: the kanji output and the arabic output, if it returns true. -/
def normalizeNumbers (input : Text) (trimLeadingZeros : Bool) : Option (Text × Text) := do
  let numbers ← input.mapM kanjiNumberToArabicNumber
  if numbers.isEmpty then none
  else
    let n ← normalizeNumbersHelper numbers
    some (input.flatMap kanjiText, arabicText trimLeadingZeros numbers n)

end Mozkey.Base.NumberUtil
