import Mozkey.Composer.Transliterators

/-! The composition of `composer/composition.cc`: the chunks that the typed text is made of. -/

namespace Mozkey.Composer

open Storage Base Session

structure Composition where
  chunks : List CharChunk := []
  inputT12r : Transliterator := .conversionString
  deriving DecidableEq

namespace Composition

variable (transliterators : Transliterators)

/-- `GetPosition` of the end of some chunks; without a transliterator each has its own. -/
def lengthOf (t12r : Option Transliterator) (chunks : List CharChunk) : Nat :=
  (chunks.map fun chunk => chunk.getLength transliterators t12r).sum

/-- The loop of `GetChunkAt`: the number of chunks before the one found, and the position within
it. -/
def getChunkAtLoop (t12r : Option Transliterator) : List CharChunk → Nat → Nat × Nat
  | [], _ => (0, 0)
  | chunk :: chunks, position =>
    if position ≤ chunk.getLength transliterators t12r then (0, position)
    else if chunks = [] then (0, chunk.getLength transliterators t12r)
    else
      let (index, inner) := getChunkAtLoop t12r chunks (position - chunk.getLength transliterators t12r)
      (index + 1, inner)

variable (composition : Composition)

def getChunkAt (t12r : Option Transliterator) (position : Nat) : Nat × Nat :=
  getChunkAtLoop transliterators t12r composition.chunks position

def getPosition (t12r : Option Transliterator) (index : Nat) : Nat :=
  lengthOf transliterators t12r (composition.chunks.take index)

def getLength : Nat := lengthOf transliterators none composition.chunks

def convertPosition (positionFrom : Nat) (t12rFrom t12rTo : Option Transliterator) : Nat :=
  if t12rFrom = t12rTo then positionFrom
  else
    let (index, inner) := composition.getChunkAt transliterators t12rFrom positionFrom
    match composition.chunks[index]? with
    | none => 0
    | some chunk =>
      let positionTo := composition.getPosition transliterators t12rTo index
      let lengthTo := chunk.getLength transliterators t12rTo
      if inner = 0 then positionTo
      else if inner = chunk.getLength transliterators t12rFrom then positionTo + lengthTo
      else if lengthTo < inner then positionTo + lengthTo
      else positionTo + inner

def getString : Bytes := composition.chunks.flatMap fun chunk => chunk.result transliterators none

/-- `GetStringWithModes` of `FIX`: the last chunk with its ambiguous text. -/
def getStringWithTransliterator (t12r : Option Transliterator) : Bytes :=
  match composition.chunks.getLast? with
  | none => []
  | some last =>
    (composition.chunks.dropLast.flatMap fun chunk => chunk.result transliterators t12r) ++
      last.fixedResult transliterators t12r

def getTransliteratedText (t12r : Option Transliterator) (position size : Nat) : Bytes :=
  let start := composition.convertPosition transliterators position none t12r
  let stop := composition.convertPosition transliterators (position + size) none t12r
  utf8SubString (composition.getStringWithTransliterator transliterators t12r) start (stop - start)

def getRawSubString (position size : Nat) : Bytes :=
  composition.getTransliteratedText transliterators (some .rawString) position size

def getRawString : Bytes :=
  composition.getRawSubString transliterators 0 (composition.getLength transliterators)

/-- The chunks before the position and those behind it; one in the middle of which it is is split. -/
def maybeSplitChunkAt (position : Nat) : List CharChunk × List CharChunk :=
  let (index, inner) := composition.getChunkAt transliterators none position
  match composition.chunks[index]? with
  | none => ([], composition.chunks)
  | some chunk =>
    if index = 0 ∧ inner = 0 then ([], composition.chunks)
    else if inner = chunk.getLength transliterators none then
      (composition.chunks.take (index + 1), composition.chunks.drop (index + 1))
    else
      match chunk.splitChunk transliterators none inner with
      | some (left, right) =>
        (composition.chunks.take index ++ [left], right :: composition.chunks.drop (index + 1))
      | none => (composition.chunks.take index, composition.chunks.drop index)

variable (table : Table)

/-- `GetInsertionChunk`: the chunks before the one that takes the input, and that one. -/
def getInsertionChunk (left : List CharChunk) : List CharChunk × CharChunk :=
  match left.getLast? with
  | none => ([], { transliterator := composition.inputT12r })
  | some last =>
    if last.isAppendable composition.inputT12r then (left.dropLast, last)
    else (left, { transliterator := composition.inputT12r })

/-- The loop of `CombinePendingChunks`, over the chunks before the one that takes the input, the last
of them first. -/
def combinePendingChunksLoop (nextInput : Bytes) : List CharChunk → CharChunk →
    List CharChunk × CharChunk
  | [], chunk => ([], chunk)
  | left :: rest, chunk =>
    if left.isConvertible table composition.inputT12r (chunk.pending ++ nextInput) then
      combinePendingChunksLoop nextInput rest (chunk.combine left)
    else (left :: rest, chunk)

def combinePendingChunks (input : CompositionInput) (before : List CharChunk) (chunk : CharChunk) :
    List CharChunk × CharChunk :=
  if input.isAsis then (before, chunk)
  else
    let nextInput := if input.conversion = [] then input.raw else input.conversion
    let (before, chunk) :=
      combinePendingChunksLoop composition table nextInput before.reverse chunk
    (before.reverse, chunk)

/-- The loop of `InsertInput`: all chunks up to the one that has taken the last of the input. -/
def insertInputLoop : (fuel : Nat) → CompositionInput → List CharChunk → CharChunk →
    Option (List CharChunk × CharChunk)
  | 0, _, _, _ => none
  | fuel + 1, input, before, chunk => do
    let (input, chunk) ← chunk.addCompositionInput table fuel input
    if input.raw = [] ∧ input.conversion = [] then some (before, chunk)
    else
      insertInputLoop fuel { input with isNewInput := false } (before ++ [chunk])
        { transliterator := composition.inputT12r }

def insertInput (fuel position : Nat) (input : CompositionInput) : Option (Nat × Composition) :=
  if input.raw = [] ∧ input.conversion = [] then some (position, composition)
  else do
    let (left, right) := composition.maybeSplitChunkAt transliterators position
    let isInvisible := fun chunk : CharChunk =>
      chunk.getLength transliterators (some composition.inputT12r) = 0
    let left := left ++ right.takeWhile isInvisible
    let right := right.dropWhile isInvisible
    let (before, chunk) := composition.getInsertionChunk left
    let (before, chunk) := composition.combinePendingChunks table input before chunk
    let (before, chunk) ← composition.insertInputLoop table fuel input before chunk
    let left := if chunk.isEmpty then before else before ++ [chunk]
    return (lengthOf transliterators none left, { composition with chunks := left ++ right })

def insertAt (fuel position : Nat) (input : Bytes) : Option (Nat × Composition) :=
  composition.insertInput transliterators table fuel position { raw := input }

def insertKeyAndPreeditAt (fuel position : Nat) (key preedit : Bytes) : Option (Nat × Composition) :=
  composition.insertInput transliterators table fuel position { raw := key, conversion := preedit }

def deleteAtLoop (originalSize position : Nat) : (fuel : Nat) → (newPosition : Nat) → Composition →
    Option (Nat × Composition)
  | 0, _, _ => none
  | fuel + 1, newPosition, composition =>
    if composition.chunks = [] ∨ composition.getLength transliterators ≠ originalSize then
      some (newPosition, composition)
    else
      let (left, right) := composition.maybeSplitChunkAt transliterators position
      let newPosition := lengthOf transliterators none left
      match right with
      | [] => some (newPosition, { composition with chunks := left })
      | chunk :: right =>
        if chunk.getLength transliterators none ≤ 1 then
          deleteAtLoop originalSize position fuel newPosition { composition with chunks := left ++ right }
        else
          let chunk := ((chunk.splitChunk transliterators none 1).map Prod.snd).getD chunk
          deleteAtLoop originalSize position fuel newPosition
            { composition with chunks := left ++ chunk :: right }

def deleteAt (fuel position : Nat) : Option (Nat × Composition) :=
  deleteAtLoop transliterators (composition.getLength transliterators) position fuel position composition

/-- From the chunk at the first position to the one at the second, which stands no further left. -/
def setTransliterator (positionFrom positionTo : Nat) (t12r : Transliterator) : Composition :=
  if positionTo < positionFrom ∨ composition.chunks = [] then composition
  else
    let first := (composition.getChunkAt transliterators none positionFrom).1
    let last := (composition.getChunkAt transliterators none positionTo).1
    { composition with
      chunks := composition.chunks.mapIdx fun index chunk =>
        if first ≤ index ∧ index ≤ last then { chunk with transliterator := t12r } else chunk }

def setInputMode (t12r : Transliterator) : Composition := { composition with inputT12r := t12r }

def erase : Composition := { composition with chunks := [] }

/-- The transliterator of the chunk at a position, which a composition without chunks does not have. -/
def getTransliterator (position : Nat) : Option Transliterator :=
  (composition.chunks[(composition.getChunkAt transliterators none position).1]?).map fun chunk =>
    chunk.getTransliterator none

end Composition

end Mozkey.Composer
