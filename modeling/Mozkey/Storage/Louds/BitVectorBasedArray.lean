import Mozkey.Storage.Louds.SimpleSuccinctBitVectorIndex

/-! `BitVectorBasedArrayBuilder` and `BitVectorBasedArray` of `storage/louds`: the elements behind
each other, and how many steps each of them takes in a bit vector.  Sums of `size_t` wrap; an `int`
that overflows, a check that fails and a read outside the image are `none`. -/

namespace Mozkey.Storage

structure BitVectorBasedArrayBuilder where
  elements : List Bytes := []
  baseLength : Nat := 4
  stepLength : Nat := 1
  deriving DecidableEq

namespace BitVectorBasedArrayBuilder

def add (element : Bytes) (b : BitVectorBasedArrayBuilder) : BitVectorBasedArrayBuilder :=
  { b with elements := b.elements ++ [element] }

def setSize (baseLength stepLength : Nat) (b : BitVectorBasedArrayBuilder) :
    BitVectorBasedArrayBuilder :=
  { b with baseLength, stepLength }

/-- The loop of `Build` that counts the steps of an element; `num_steps` can still be increased
`room` times. -/
def countSteps (baseLength stepLength : Nat) : (room : Nat) → (length : Nat) → Option Nat
  | 0, length => if length > baseLength then none else some 0
  | room + 1, length =>
    if length > baseLength then
      (countSteps baseLength stepLength room ((length + 2 ^ 64 - stepLength) % 2 ^ 64)).map (· + 1)
    else some 0

variable (b : BitVectorBasedArrayBuilder)

def numSteps (element : Bytes) : Option Nat :=
  countSteps b.baseLength b.stepLength (2 ^ 31 - 1) element.length

/-- An element with its padding, which cannot be appended if the difference wraps. -/
def output (element : Bytes) (numSteps : Nat) : Option Bytes :=
  let outputLength := (b.baseLength + numSteps * b.stepLength) % 2 ^ 64
  if outputLength < element.length then none
  else some (element ++ List.replicate (outputLength - element.length) 0)

def buildElement (out : BitStream × Bytes) (element : Bytes) : Option (BitStream × Bytes) := do
  let numSteps ← b.numSteps element
  let output ← b.output element numSteps
  some ((out.1.pushBit false).pushBits (List.replicate numSteps true), out.2 ++ output)

def build : Option Bytes := do
  let (bitStream, data) ← b.elements.foldlM b.buildElement ({}, [])
  let bitStream := (bitStream.pushBit false).fillPadding32
  let image ← pushInt32 bitStream.image.length []
  let image ← pushInt32 b.baseLength image
  let image ← pushInt32 b.stepLength image
  let image ← pushInt32 0 image
  some (image ++ bitStream.image ++ data)

end BitVectorBasedArrayBuilder

structure BitVectorBasedArray where
  index : SimpleSuccinctBitVectorIndex
  baseLength : Nat
  stepLength : Nat
  data : Bytes
  deriving DecidableEq

namespace BitVectorBasedArray

def kLb0CacheSize : Nat := 1024

def kLb1CacheSize : Nat := 0

/-- A word of 32 bits that becomes an `int` and then a `size_t`. -/
def sizeOfInt (word : Nat) : Nat := if word < 2 ^ 31 then word else word + (2 ^ 64 - 2 ^ 32)

def openImage (image : Bytes) : Option BitVectorBasedArray := do
  let indexLength ← loadUint32 image 0
  let baseLength ← loadUint32 image 4
  let stepLength ← loadUint32 image 8
  let padding ← loadUint32 image 12
  guard (padding = 0)
  let image := image.drop 16
  guard (indexLength < 2 ^ 31 ∧ indexLength ≤ image.length)
  let index ← SimpleSuccinctBitVectorIndex.init 32 (image.take indexLength) kLb0CacheSize
    kLb1CacheSize
  some { index
         baseLength := sizeOfInt baseLength
         stepLength := sizeOfInt stepLength
         data := image.drop indexLength }

def skipOnes (index : SimpleSuccinctBitVectorIndex) : (fuel : Nat) → (i : Nat) → Option Nat
  | 0, _ => none
  | fuel + 1, i => do if ← index.get i then skipOnes index fuel (i + 1) else some i

/-- `Get`: where the element begins in the data, as an `int`, and its length. -/
def get (array : BitVectorBasedArray) (index : Nat) : Option (Int × Nat) := do
  let bitIndex ← array.index.select0 (index + 1)
  let ones ← array.index.rank1 bitIndex
  let dataIndex : Nat := (array.baseLength * index + array.stepLength * ones) % 2 ^ 64
  let i ← skipOnes array.index (8 * array.index.data.length) (bitIndex + 1)
  some (Int.bmod dataIndex (2 ^ 32),
    (array.baseLength + array.stepLength * (i - bitIndex - 1)) % 2 ^ 64)

def view (array : BitVectorBasedArray) (position : Int) (length : Nat) : Option Bytes :=
  if 0 ≤ position ∧ position.toNat + length ≤ array.data.length then
    some ((array.data.drop position.toNat).take length)
  else none

end BitVectorBasedArray

end Mozkey.Storage
