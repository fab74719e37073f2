import Mozkey.Dictionary.System.TokenCodecCorrect

/-! The token array that `SystemDictionaryBuilder` writes, with `TokenScanIterator` of
`system_dictionary.cc`, which goes through all of it, and `TokenDecodeIterator` of
`token_decode_iterator.h`, which reads the tokens of one key. -/

namespace Mozkey.Dictionary

open Storage Base

namespace BitVectorBasedArrayBuilder

def baseLength : Nat := 4

def stepLength : Nat := 1

/-- The loop of `Build` that counts the steps of an element, with the step length of the builder. -/
def numSteps : Nat → Nat
  | 0 => 0
  | length + 1 => if length + 1 > baseLength then numSteps length + 1 else 0

def outputLength (element : Bytes) : Nat := baseLength + numSteps element.length * stepLength

def output (element : Bytes) : Bytes :=
  element ++ List.replicate (outputLength element - element.length) 0

def data (elements : List Bytes) : Bytes := elements.flatMap output

def elementOffset (elements : List Bytes) (index : Nat) : Nat := (data (elements.take index)).length

end BitVectorBasedArrayBuilder

structure KeyInfo where
  tokens : List TokenInfo := []
  key : Bytes := []
  idInKeyTrie : Int := -1
  deriving DecidableEq

/-- The elements that `BuildTokenArray` adds for the keys in the order of their ids. -/
def tokenArrayElements (idToKeyinfoTable : List KeyInfo) : Option (List Bytes) := do
  let blocks ← idToKeyinfoTable.mapM fun info => encodeTokens info.tokens
  some (blocks ++ [[UInt8.ofNat kTokenTerminationFlag]])

def kMinTokenArrayBlobSize : Nat := 4

/-- The value of a sum of `int`s, which is not to overflow. -/
def toInt (n : Nat) : Option Nat := if n ≤ 0x7fffffff then some n else none

structure TokenScanIterator.Result where
  valueId : Int := -1
  index : Nat := 0
  tokensOffset : Nat := 0
  deriving DecidableEq

inductive TokenScanIterator.State where
  | hasNext
  | done
  deriving DecidableEq

structure TokenScanIterator where
  state : TokenScanIterator.State := .hasNext
  result : TokenScanIterator.Result := {}
  offset : Nat := 0
  tokensOffset : Nat := 0
  index : Nat := 0
  deriving DecidableEq

namespace TokenScanIterator

/-- `NextInternal`. Each block has four bytes or more, so that `index_` overflows after
`tokens_offset_`. -/
def nextInternal (data : Bytes) (it : TokenScanIterator) : Option TokenScanIterator := do
  if (← byteAt data it.offset) = kTokenTerminationFlag then some { it with state := .done }
  else
    let (valueId, readBytes, more) ← readTokenForReverseLookup (data.drop it.offset)
    let result : Result := { valueId, index := it.index, tokensOffset := it.tokensOffset }
    let next ← toInt (it.offset + readBytes)
    if more then some { it with result, offset := next }
    else
      let tokensSize := next - it.tokensOffset
      let tokensSize := if tokensSize < kMinTokenArrayBlobSize then kMinTokenArrayBlobSize
        else tokensSize
      let tokensOffset ← toInt (it.tokensOffset + tokensSize)
      some { it with result, tokensOffset, offset := tokensOffset, index := it.index + 1 }

def results (data : Bytes) : Nat → TokenScanIterator → Option (List Result)
  | 0, _ => none
  | fuel + 1, it =>
    match it.state with
    | .done => some []
    | .hasNext => do
      let next ← it.nextInternal data
      return it.result :: (← results data fuel next)

def scan (data : Bytes) (fuel : Nat) : Option (List Result) := do
  results data fuel (← nextInternal data {})

end TokenScanIterator

inductive TokenDecodeIterator.State where
  | hasNext
  | lastToken
  | done
  deriving DecidableEq

/-- What the iterator looks up outside of the token array: the values of the value trie, the 256
POS of their own section, and the conversion of the key. -/
structure TokenDecodeIterator.Source where
  lookupValue : Int → Bytes
  frequentPos : UInt8 → Nat
  hiraganaToKatakana : Bytes → Bytes

structure TokenDecodeIterator where
  state : TokenDecodeIterator.State := .hasNext
  ptr : Bytes
  tokenInfo : TokenInfo

namespace TokenDecodeIterator

variable (source : Source)

def keyKatakana (key : Bytes) : Bytes := if key ≠ [] then source.hiraganaToKatakana key else []

/-- The values that `NextInternal` fills behind `DecodeToken`. -/
def fill (prevIdInValueTrie : Int) (info : TokenInfo) : TokenInfo :=
  let info := match info.valueType with
    | .defaultValue => { info with token.value := source.lookupValue info.idInValueTrie }
    | .sameAsPrevValue => { info with idInValueTrie := prevIdInValueTrie }
    | .asIsHiragana => { info with token.value := info.token.key }
    | .asIsKatakana => { info with token.value := keyKatakana source info.token.key }
  if info.posType = .frequentPos then
    let pos := source.frequentPos (byteOfInt info.idInFrequentPosMap)
    { info with token.lid := pos >>> 16, token.rid := pos &&& 0xffff }
  else info

/-- `TokenInfo::Clear`, which keeps the token but for its attributes. -/
def clear (info : TokenInfo) : TokenInfo := { token := { info.token with attributes := 0 } }

def nextInternal (it : TokenDecodeIterator) : Option TokenDecodeIterator := do
  let (info, readBytes, more) ← decodeToken it.ptr (clear it.tokenInfo)
  some {
    state := if more then it.state else .lastToken
    ptr := it.ptr.drop readBytes
    tokenInfo := fill source it.tokenInfo.idInValueTrie info }

def start (key ptr : Bytes) : Option TokenDecodeIterator :=
  nextInternal source { ptr, tokenInfo := { token := { key } } }

def next (it : TokenDecodeIterator) : Option TokenDecodeIterator :=
  if it.state = .lastToken then some { it with state := .done } else nextInternal source it

def tokens : Nat → TokenDecodeIterator → Option (List TokenInfo)
  | 0, _ => none
  | fuel + 1, it =>
    match it.state with
    | .done => some []
    | _ => do
      let following ← it.next source
      return it.tokenInfo :: (← tokens fuel following)

/-- The tokens of a key whose block begins at a pointer. -/
def decodeBlock (key ptr : Bytes) (fuel : Nat) : Option (List TokenInfo) := do
  tokens source fuel (← start source key ptr)

end TokenDecodeIterator

end Mozkey.Dictionary
