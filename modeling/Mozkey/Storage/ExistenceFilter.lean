import Mozkey.Lib.Blocks

/-! The Bloom filter of `storage/existence_filter.cc`: its bits in blocks, the builder that sets
them, the string it is written to and the view that is read back. -/

namespace Mozkey.Storage

structure ExistenceFilterParams where
  size : UInt32 := 0
  expectedNelts : UInt32 := 0
  numHashes : UInt16 := 0
  fpType : UInt16 := 1
  deriving DecidableEq

def fpTypeSize : UInt16 := 2

def kBlockShift : UInt32 := 21

def kBlockMask : UInt32 := 2 ^ 21 - 1

def kBlockWords : UInt32 := 2 ^ 16

structure BlockDimensions where
  count : UInt32
  lastSize : UInt32
  deriving DecidableEq

def blockDimensions (bits : UInt32) : BlockDimensions :=
  let count := bits >>> kBlockShift
  let bitsInLastBlock := bits &&& kBlockMask
  if bitsInLastBlock ≠ 0 then { count := count + 1, lastSize := (bitsInLastBlock + 31) / 32 }
  else { count, lastSize := kBlockWords }

/-- The words of a bitmap in blocks; each block but the last one has `kBlockWords` of them. -/
abbrev BlockBitmap := List (List UInt32)

namespace BlockBitmap

def ofBuffer (size : UInt32) (buf : List UInt32) : BlockBitmap :=
  let dimensions := blockDimensions size
  Lib.splitBlocks kBlockWords.toNat dimensions.lastSize.toNat (dimensions.count - 1).toNat buf

def blockIndex (index : UInt32) : Nat := (index >>> kBlockShift).toNat

def wordIndex (index : UInt32) : Nat := ((index &&& kBlockMask) >>> 5).toNat

def bitPosition (index : UInt32) : UInt32 := index &&& 31

def get (index : UInt32) (blocks : BlockBitmap) : Option Bool := do
  let block ← blocks[blockIndex index]?
  let word ← block[wordIndex index]?
  return (word >>> bitPosition index) &&& 1 != 0

def zero (size : UInt32) : BlockBitmap :=
  let dimensions := blockDimensions size
  List.replicate (dimensions.count - 1).toNat (List.replicate kBlockWords.toNat 0) ++
    [List.replicate dimensions.lastSize.toNat 0]

def set (index : UInt32) (blocks : BlockBitmap) : BlockBitmap :=
  blocks.modify (blockIndex index)
    (·.modify (wordIndex index) fun word => word ||| (1 <<< bitPosition index))

end BlockBitmap

def rotl8 (hash : UInt64) : UInt64 := (hash <<< 8) ||| (hash >>> 56)

def hashIndex (size : UInt32) (hash : UInt64) : UInt32 := (hash % size.toUInt64).toUInt32

structure ExistenceFilter where
  params : ExistenceFilterParams
  rep : BlockBitmap
  deriving DecidableEq

structure ExistenceFilterBuilder where
  params : ExistenceFilterParams
  rep : BlockBitmap
  deriving DecidableEq

def existsFrom (size : UInt32) (rep : BlockBitmap) : (hashes : Nat) → UInt64 → Option Bool
  | 0, _ => some true
  | hashes + 1, hash => do
    let hash := rotl8 hash
    if ← rep.get (hashIndex size hash) then existsFrom size rep hashes hash else return false

def insertFrom (size : UInt32) : (hashes : Nat) → UInt64 → BlockBitmap → BlockBitmap
  | 0, _, rep => rep
  | hashes + 1, hash, rep =>
    let hash := rotl8 hash
    insertFrom size hashes hash (rep.set (hashIndex size hash))

def kHeaderSize : UInt32 := 3

def bitsToWords (bits : UInt32) : UInt32 :=
  let words := (bits + 31) >>> 5
  -- The sum may have wrapped around.
  if bits > 0 ∧ words = 0 then (1 : UInt32) <<< (32 - 5) else words

def readHeader (buf : List UInt32) : Except String ExistenceFilterParams :=
  match buf with
  | size :: expectedNelts :: v :: _ =>
    let params : ExistenceFilterParams :=
      { size
        expectedNelts
        numHashes := (v &&& 0xFFFF).toUInt16
        fpType := (v >>> 16).toUInt16 }
    if params.numHashes ≥ 8 ∨ params.numHashes ≤ 0 then .error "Bad number of hashes (header.k)"
    else if params.fpType ≥ fpTypeSize then .error "unsupported fp type"
    else .ok params
  | _ => .error "Not enough bufsize: could not read header"

section

variable {Key : Type} (fingerprint : Key → UInt16 → UInt64)

namespace ExistenceFilter

/-- `Exists` of a key, or nothing where a bit outside the bitmap is read. -/
def existsKey (key : Key) (filter : ExistenceFilter) : Option Bool :=
  existsFrom filter.params.size filter.rep filter.params.numHashes.toNat
    (fingerprint key filter.params.fpType)

def read (buf : List UInt32) : Except String ExistenceFilter :=
  match readHeader buf with
  | .error _ => .error "Invalid format: could not read header"
  | .ok params =>
    let buf := buf.drop kHeaderSize.toNat
    if buf.length < (bitsToWords params.size).toNat then
      .error "Not enough bufsize: could not read"
    else .ok { params, rep := .ofBuffer params.size buf }

end ExistenceFilter

namespace ExistenceFilterBuilder

def create (params : ExistenceFilterParams) : ExistenceFilterBuilder :=
  { params, rep := .zero params.size }

def insert (key : Key) (builder : ExistenceFilterBuilder) : ExistenceFilterBuilder :=
  { builder with
    rep := insertFrom builder.params.size builder.params.numHashes.toNat
      (fingerprint key builder.params.fpType) builder.rep }

def build (builder : ExistenceFilterBuilder) : ExistenceFilter :=
  { params := builder.params, rep := builder.rep }

/-- The size of the string, as it is computed before anything is written. -/
def requiredBytes (builder : ExistenceFilterBuilder) : Nat :=
  (kHeaderSize + bitsToWords builder.params.size).toNat * 4

def writtenBytes (builder : ExistenceFilterBuilder) : List UInt8 :=
  Lib.bytesOf 4 builder.params.size.toNat ++ Lib.bytesOf 4 builder.params.expectedNelts.toNat ++
    Lib.bytesOf 2 builder.params.numHashes.toNat ++ Lib.bytesOf 2 builder.params.fpType.toNat ++
    builder.rep.flatMap fun block => block.flatMap fun word => Lib.bytesOf 4 word.toNat

/-- The string has the required size; what is not written stays 0. -/
def serializeAsString (builder : ExistenceFilterBuilder) : List UInt8 :=
  builder.writtenBytes ++
    List.replicate (builder.requiredBytes - builder.writtenBytes.length) 0

end ExistenceFilterBuilder

end

/-- A string as the words that a little-endian machine reads in it. -/
def wordsOf : List UInt8 → List UInt32
  | a :: b :: c :: d :: bytes => UInt32.ofNat (Lib.valueOf [a, b, c, d]) :: wordsOf bytes
  | _ => []

end Mozkey.Storage
