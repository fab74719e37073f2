import Mozkey.Dictionary.System.Codec

/-! The tokens of `dictionary/system/codec.cc`: `EncodeTokens`, and the two readers of a token, which
are `DecodeToken` and `ReadTokenForReverseLookup`. -/

namespace Mozkey.Dictionary

open Storage Base

structure Token where
  key : Bytes := []
  value : Bytes := []
  cost : Int := 0
  lid : Nat := 0
  rid : Nat := 0
  attributes : Nat := 0
  deriving DecidableEq

def Token.spellingCorrection : Nat := 1

def Token.isSpellingCorrection (token : Token) : Bool :=
  token.attributes &&& spellingCorrection ≠ 0

inductive PosType where
  | defaultPos
  | frequentPos
  | sameAsPrevPos
  deriving DecidableEq

inductive ValueType where
  | defaultValue
  | sameAsPrevValue
  | asIsHiragana
  | asIsKatakana
  deriving DecidableEq

inductive CostType where
  | defaultCost
  | canUseSmallEncoding
  deriving DecidableEq

structure TokenInfo where
  token : Token
  idInValueTrie : Int := -1
  idInFrequentPosMap : Int := -1
  posType : PosType := .defaultPos
  valueType : ValueType := .defaultValue
  costType : CostType := .defaultCost
  deriving DecidableEq

def kPosMax : Nat := 0x0fff

def kCostMax : Int := 0x7fff

def kValueTrieIdMax : Nat := 0x3fffff

def kSmallCostFlag : Nat := 0x80

def kSmallCostMask : Nat := 0x7f

def kTokenTerminationFlag : Nat := 0xff

def kValueTypeFlagMask : Nat := 0x03

def kAsIsHiraganaValueFlag : Nat := 0x01

def kAsIsKatakanaValueFlag : Nat := 0x2

def kSameAsPrevValueFlag : Nat := 0x03

def kNormalValueFlag : Nat := 0x00

def kPosTypeFlagMask : Nat := 0x0c

def kFullPosFlag : Nat := 0x04

def kMonoPosFlag : Nat := 0x08

def kSameAsPrevPosFlag : Nat := 0x0c

def kFrequentPosFlag : Nat := 0x00

def kSpellingCorrectionFlag : Nat := 0x10

def kCrammedIDFlag : Nat := 0x40

def kUpperFlagsMask : Nat := 0xc0

def kUpperCrammedIDMask : Nat := 0x3f

def kLastTokenFlag : Nat := 0x80

def getFlagForPos (info : TokenInfo) : Option Nat :=
  if info.token.lid > kPosMax ∨ info.token.rid > kPosMax then none
  else match info.posType with
    | .frequentPos => some kFrequentPosFlag
    | .sameAsPrevPos => some kSameAsPrevPosFlag
    | .defaultPos => some (if info.token.lid = info.token.rid then kMonoPosFlag else kFullPosFlag)

def getFlagForValue (info : TokenInfo) : Nat :=
  match info.valueType with
  | .sameAsPrevValue => kSameAsPrevValueFlag
  | .asIsHiragana => kAsIsHiraganaValueFlag
  | .asIsKatakana => kAsIsKatakanaValueFlag
  | .defaultValue => kNormalValueFlag

def getFlagsForToken (tokens : List TokenInfo) (index : Nat) : Option Nat := do
  let info ← tokens[index]?
  let flags := if index = tokens.length - 1 then kLastTokenFlag else 0
  let flags := if info.token.isSpellingCorrection then flags ||| kSpellingCorrectionFlag else flags
  let flags := flags ||| (← getFlagForPos info)
  if index = 0 ∧ flags &&& kPosTypeFlagMask = kSameAsPrevPosFlag then none
  else
    let flags := flags ||| getFlagForValue info
    if index = 0 ∧ flags &&& kValueTypeFlagMask = kSameAsPrevValueFlag then none
    else some (if flags &&& kUpperCrammedIDMask = 0 then flags ||| kCrammedIDFlag else flags)

def byteOfInt (n : Int) : UInt8 := UInt8.ofNat (n % 256).toNat

def encodeCost (info : TokenInfo) : Option Bytes :=
  if info.token.cost > kCostMax then none
  else match info.costType with
    | .canUseSmallEncoding =>
      some [byteOfInt (info.token.cost >>> (8 : Nat)) ||| UInt8.ofNat kSmallCostFlag]
    | .defaultCost => some [byteOfInt (info.token.cost >>> (8 : Nat)), byteOfInt info.token.cost]

def encodePos (info : TokenInfo) (flags : Nat) : Option Bytes :=
  let posFlag := flags &&& kPosTypeFlagMask
  let lid := info.token.lid
  let rid := info.token.rid
  if posFlag = kFullPosFlag then
    some [UInt8.ofNat (lid &&& 255), UInt8.ofNat (((rid <<< 4) &&& 255) ||| (lid >>> 8)),
      UInt8.ofNat ((rid >>> 4) &&& 255)]
  else if posFlag = kMonoPosFlag then some [UInt8.ofNat (lid &&& 255), UInt8.ofNat (lid >>> 8)]
  else if posFlag = kFrequentPosFlag then
    if info.idInFrequentPosMap < 0 then none else some [byteOfInt info.idInFrequentPosMap]
  else if posFlag = kSameAsPrevPosFlag then some []
  else none

/-- `EncodeValueInfo`: the bits that it sets in the byte of the flags, and what it appends. A
negative id is a `uint32_t` beyond the limit. -/
def encodeValueInfo (info : TokenInfo) (flags : Nat) : Option (Nat × Bytes) :=
  if flags &&& kValueTypeFlagMask ≠ kNormalValueFlag then some (0, [])
  else if info.idInValueTrie < 0 ∨ kValueTrieIdMax < info.idInValueTrie.toNat then none
  else
    let id := info.idInValueTrie.toNat
    if flags &&& kCrammedIDFlag ≠ 0 then
      some ((id >>> 16) &&& kUpperCrammedIDMask,
        [UInt8.ofNat (id &&& 255), UInt8.ofNat ((id >>> 8) &&& 255)])
    else
      some (0, [UInt8.ofNat (id &&& 255), UInt8.ofNat ((id >>> 8) &&& 255),
        UInt8.ofNat ((id >>> 16) &&& 255)])

def encodeToken (tokens : List TokenInfo) (index : Nat) : Option Bytes := do
  let flags ← getFlagsForToken tokens index
  let info ← tokens[index]?
  let pos ← encodePos info flags
  let cost ← encodeCost info
  let (upper, value) ← encodeValueInfo info flags
  let output := UInt8.ofNat (flags ||| upper) :: (pos ++ cost ++ value)
  if output.length ≤ 9 then some output else none

def encodeTokens (tokens : List TokenInfo) : Option Bytes := do
  let output := (← (List.range tokens.length).mapM (encodeToken tokens)).flatten
  if output.head? = some (UInt8.ofNat kTokenTerminationFlag) then none else some output

def readFlags (val : Nat) : Nat := if val &&& kCrammedIDFlag ≠ 0 then val &&& kUpperFlagsMask else val

/-- The byte at a pointer, which is what is left of the bytes behind it. -/
def byteAt (ptr : Bytes) (offset : Nat) : Option Nat := ptr[offset]?.map UInt8.toNat

def decodeCost (ptr : Bytes) (info : TokenInfo) (offset : Nat) : Option (TokenInfo × Nat) := do
  let high ← byteAt ptr offset
  if high &&& kSmallCostFlag ≠ 0 then
    some ({ info with token.cost := ((high &&& kSmallCostMask) <<< 8 : Nat) }, offset + 1)
  else
    let low ← byteAt ptr (offset + 1)
    some ({ info with token.cost := ((high <<< 8) + low : Nat) }, offset + 2)

def decodePos (ptr : Bytes) (flags : Nat) (info : TokenInfo) (offset : Nat) :
    Option (TokenInfo × Nat) :=
  let posFlag := flags &&& kPosTypeFlagMask
  if posFlag = kFrequentPosFlag then do
    let posId ← byteAt ptr offset
    some ({ info with posType := .frequentPos, idInFrequentPosMap := posId }, offset + 1)
  else if posFlag = kSameAsPrevPosFlag then
    some ({ info with posType := .sameAsPrevPos }, offset)
  else if posFlag = kMonoPosFlag then do
    let low ← byteAt ptr offset
    let high ← byteAt ptr (offset + 1)
    let id := (high <<< 8) ||| low
    some ({ info with token.lid := id, token.rid := id }, offset + 2)
  else if posFlag = kFullPosFlag then do
    let b0 ← byteAt ptr offset
    let b1 ← byteAt ptr (offset + 1)
    let b2 ← byteAt ptr (offset + 2)
    some ({ info with
      token.lid := b0 + ((b1 &&& 0x0f) <<< 8), token.rid := (b1 >>> 4) + (b2 <<< 4) }, offset + 3)
  else some (info, offset)

/-- The id in the bytes behind the POS and the cost, in `DecodeValueInfo` and in `ReadValueInfo`. -/
def readValueId (ptr : Bytes) (flags offset : Nat) : Option (Nat × Nat) := do
  let low ← byteAt ptr offset
  let middle ← byteAt ptr (offset + 1)
  let id := (middle <<< 8) ||| low
  if flags &&& kCrammedIDFlag ≠ 0 then
    let first ← byteAt ptr 0
    some (id ||| ((first &&& kUpperCrammedIDMask) <<< 16), offset + 2)
  else
    let high ← byteAt ptr (offset + 2)
    some (id ||| (high <<< 16), offset + 3)

def decodeValueInfo (ptr : Bytes) (flags : Nat) (info : TokenInfo) (offset : Nat) :
    Option (TokenInfo × Nat) :=
  let valueFlag := flags &&& kValueTypeFlagMask
  if valueFlag = kAsIsHiraganaValueFlag then some ({ info with valueType := .asIsHiragana }, offset)
  else if valueFlag = kAsIsKatakanaValueFlag then
    some ({ info with valueType := .asIsKatakana }, offset)
  else if valueFlag = kSameAsPrevValueFlag then
    some ({ info with valueType := .sameAsPrevValue }, offset)
  else do
    let (id, offset) ← readValueId ptr flags offset
    some ({ info with valueType := .defaultValue, idInValueTrie := id }, offset)

/-- `DecodeToken`: the token, the bytes read, and whether another token follows. -/
def decodeToken (ptr : Bytes) (info : TokenInfo) : Option (TokenInfo × Nat × Bool) := do
  let flags := readFlags (← byteAt ptr 0)
  let info := if flags &&& kSpellingCorrectionFlag ≠ 0
    then { info with token.attributes := Token.spellingCorrection } else info
  let (info, offset) ← decodePos ptr flags info 1
  let (info, offset) ← decodeCost ptr info offset
  let (info, offset) ← decodeValueInfo ptr flags info offset
  some (info, offset, decide (flags &&& kLastTokenFlag = 0))

def readValueInfo (ptr : Bytes) (flags offset : Nat) : Option (Int × Nat) :=
  if flags &&& kValueTypeFlagMask = kNormalValueFlag then
    (readValueId ptr flags offset).map fun (id, offset) => (id, offset)
  else some (-1, offset)

/-- `ReadTokenForReverseLookup`: the value id, the bytes read, and whether another token follows. -/
def readTokenForReverseLookup (ptr : Bytes) : Option (Int × Nat × Bool) := do
  let flags := readFlags (← byteAt ptr 0)
  let posFlag := flags &&& kPosTypeFlagMask
  let offset := if posFlag = kFrequentPosFlag then 2 else if posFlag = kMonoPosFlag then 3
    else if posFlag = kFullPosFlag then 4 else 1
  let cost ← byteAt ptr offset
  let offset := if cost &&& kSmallCostFlag ≠ 0 then offset + 1 else offset + 2
  let (valueId, offset) ← readValueInfo ptr flags offset
  some (valueId, offset, decide (flags &&& kLastTokenFlag = 0))

end Mozkey.Dictionary
