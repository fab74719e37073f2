import Mozkey.Composer.Composer
import Mozkey.Composer.Table

/-! `CharChunk` of `composer/char_chunk.cc`: the piece of a composition that the romaji table
rewrites as more is typed. -/

namespace Mozkey.Composer

open Storage Base Session

/-- The operations of `composer/transliterators.cc`: `Transliterate` of a raw and a converted text,
and `Split` of both at a position. -/
structure Transliterators where
  transliterate : Transliterator → Bytes → Bytes → Bytes
  split : Transliterator → Nat → Bytes → Bytes → (Bytes × Bytes) × (Bytes × Bytes)

structure CompositionInput where
  raw : Bytes
  conversion : Bytes := []
  isNewInput : Bool := false
  isAsis : Bool := false
  deriving DecidableEq

structure CharChunk where
  transliterator : Transliterator
  raw : Bytes := []
  conversion : Bytes := []
  pending : Bytes := []
  ambiguous : Bytes := []
  displayAmbiguousAsResult : Bool := false
  displayAmbiguousResultRaw : Bytes := []
  displayAmbiguousResultConversion : Bytes := []
  displayAmbiguousResultAmbiguous : Bytes := []
  displayAmbiguousResultAttributes : TableAttributes := NO_TABLE_ATTRIBUTE
  attributes : TableAttributes := NO_TABLE_ATTRIBUTE
  deriving DecidableEq

namespace CharChunk

variable (table : Table) (chunk : CharChunk)

def clear : CharChunk :=
  { chunk with
    raw := []
    conversion := []
    pending := []
    ambiguous := []
    displayAmbiguousAsResult := false
    displayAmbiguousResultRaw := []
    displayAmbiguousResultConversion := []
    displayAmbiguousResultAmbiguous := []
    displayAmbiguousResultAttributes := NO_TABLE_ATTRIBUTE }

def clearDisplayAmbiguousResultFallback : CharChunk :=
  { chunk with
    displayAmbiguousResultRaw := []
    displayAmbiguousResultConversion := []
    displayAmbiguousResultAmbiguous := []
    displayAmbiguousResultAttributes := NO_TABLE_ATTRIBUTE }

def saveDisplayAmbiguousResultFallback : CharChunk :=
  { chunk with
    displayAmbiguousResultRaw := chunk.raw
    displayAmbiguousResultConversion := chunk.conversion
    displayAmbiguousResultAmbiguous := chunk.ambiguous
    displayAmbiguousResultAttributes := chunk.attributes }

def hasDisplayAmbiguousResultFallback : Bool :=
  chunk.displayAmbiguousResultRaw ≠ [] ∧
    chunk.displayAmbiguousResultRaw.length < chunk.raw.length ∧
    chunk.displayAmbiguousResultRaw.isPrefixOf chunk.raw

def restoreDisplayAmbiguousResultFallback (input : Bytes) : Bytes × CharChunk :=
  (chunk.raw.drop chunk.displayAmbiguousResultRaw.length ++ input,
    { chunk with
      raw := chunk.displayAmbiguousResultRaw
      conversion := chunk.displayAmbiguousResultConversion ++ chunk.displayAmbiguousResultAmbiguous
      pending := []
      ambiguous := []
      displayAmbiguousAsResult := false
      attributes := chunk.displayAmbiguousResultAttributes
    }.clearDisplayAmbiguousResultFallback)

/-- The used part of the input and the rest of it.  Where the used key is shorter than `pending_`,
`used_input_length` wraps to a position past the end of every string, and `substr` throws. -/
def useInput (usedKeyLength : Nat) (input : Bytes) : Option (Bytes × Bytes) :=
  if usedKeyLength < chunk.pending.length ∨ input.length < usedKeyLength - chunk.pending.length then none
  else
    some (input.take (usedKeyLength - chunk.pending.length),
      input.drop (usedKeyLength - chunk.pending.length))

/-- `AddInputInternal` where the table has no entry. -/
def addInputWithoutEntry (usedKeyLength : Nat) (input : Bytes) :
    Option ((Bool × Bytes) × CharChunk) :=
  if usedKeyLength ≤ chunk.pending.length ∧ chunk.hasDisplayAmbiguousResultFallback then
    let (replay, chunk) := chunk.restoreDisplayAmbiguousResultFallback input
    some ((false, replay), chunk)
  else if usedKeyLength = 0 then
    let trimmed := trimLeadingSpecialKey input
    if trimmed.length < input.length then some ((true, trimmed), chunk)
    else if chunk.pending = [] then
      let (front, rest) := frontChar input
      some ((false, rest),
        { chunk with raw := chunk.raw ++ front, conversion := chunk.conversion ++ front })
    else some ((false, input), chunk)
  else if usedKeyLength = chunk.pending.length then
    let (nextEntry, usedLength, _) := table.lookUpPrefix input
    let trimmed := trimLeadingSpecialKey input
    if nextEntry.isNone ∧ usedLength = 0 ∧ trimmed.length < input.length then
      some ((true, trimmed), chunk)
    else some ((false, input), chunk)
  else if usedKeyLength < chunk.pending.length then some ((false, input), chunk)
  else do
    let (used, rest) ← chunk.useInput usedKeyLength input
    return ((false, rest),
      { chunk with
        raw := chunk.raw ++ used
        pending := chunk.pending ++ used
        ambiguous := []
        displayAmbiguousAsResult := false })

/-- The chunk of a result that is found, ambiguous or not. -/
def setResult (entry : Entry) (key : Bytes) (resolved : Bool) : CharChunk :=
  if resolved then
    { chunk with
      conversion := chunk.conversion ++ entry.result
      pending := entry.pending
      ambiguous := []
      displayAmbiguousAsResult := false }.clearDisplayAmbiguousResultFallback
  else
    let chunk := { chunk with
      pending := key
      ambiguous := entry.result
      displayAmbiguousAsResult := hasAttribute entry.attributes DISPLAY_AMBIGUOUS_RESULT }
    if chunk.displayAmbiguousAsResult then chunk.saveDisplayAmbiguousResultFallback
    else chunk.clearDisplayAmbiguousResultFallback

/-- `AddInputInternal` where the prefix of the key has an entry. -/
def addInputWithEntry (entry : Entry) (usedKeyLength : Nat) (fixed : Bool) (input : Bytes) :
    Option ((Bool × Bytes) × CharChunk) := do
  let key := chunk.pending ++ input
  let isFirstEntry := chunk.conversion = [] ∧
    (chunk.raw = [] ∨ chunk.pending = [] ∨ chunk.raw = chunk.pending)
  let (used, rest) ← chunk.useInput usedKeyLength input
  let chunk := { chunk with
    attributes := if isFirstEntry then entry.attributes else chunk.attributes
    raw := chunk.raw ++ used }
  let chunk := chunk.setResult entry key (fixed || usedKeyLength < key.length)
  if fixed ∧ rest = [] ∧ chunk.conversion = [] ∧ chunk.pending = [] ∧
      hasAttribute chunk.attributes NO_TRANSLITERATION then
    return ((false, rest), { chunk with raw := [] })
  if rest = [] ∨ chunk.pending = [] then return ((false, rest), chunk)
  return ((true, rest), chunk)

/-- Whether to loop, the rest of the input, and the chunk; without result where `substr` throws. -/
def addInputInternal (input : Bytes) : Option ((Bool × Bytes) × CharChunk) :=
  match table.lookUpPrefix (chunk.pending ++ input) with
  | (none, usedKeyLength, _) => addInputWithoutEntry table chunk usedKeyLength input
  | (some entry, usedKeyLength, fixed) => chunk.addInputWithEntry entry usedKeyLength fixed input

/-- The text that a chunk without any takes over from an input with a conversion. -/
def takeConverted (input : CompositionInput) : CharChunk :=
  { chunk with
    raw := input.raw
    pending := input.conversion
    ambiguous := input.conversion
    attributes := match table.lookUp input.conversion with
      | some entry => entry.attributes
      | none => chunk.attributes }

def addInputAndConvertedChar (input : CompositionInput) : CompositionInput × CharChunk :=
  let isEmpty := chunk.raw = [] ∧ chunk.pending = [] ∧ chunk.conversion = []
  if input.isAsis then
    if isEmpty then
      ({ raw := [] }, { chunk with raw := input.raw, conversion := input.conversion })
    else (input, chunk)
  else if isEmpty then ({ input with raw := [], conversion := [] }, takeConverted table chunk input)
  else
    let keyInput := chunk.pending ++ input.conversion
    match table.lookUpPrefix keyInput with
    | (none, _, _) => (input, chunk)
    | (some entry, keyLength, fixed) =>
      if keyLength = keyInput.length then
        let chunk := { chunk with raw := chunk.raw ++ input.raw }
        ({ input with raw := [], conversion := [] },
          if fixed then
            { chunk with
              conversion := chunk.conversion ++ entry.result
              pending := entry.pending
              ambiguous := [] }
          else { chunk with pending := entry.result, ambiguous := entry.result })
      else if keyLength = chunk.pending.length then (input, chunk)
      else
        ({ input with raw := [], conversion := keyInput.drop keyLength },
          { chunk with
            raw := chunk.raw ++ input.raw
            conversion := chunk.conversion ++ entry.result
            pending := entry.pending })

def isEmpty : Bool := chunk.raw = [] ∧ chunk.conversion = [] ∧ chunk.pending = []

def addInput : (fuel : Nat) → (input : Bytes) → CharChunk → Option (Bytes × CharChunk)
  | 0, _, _ => none
  | fuel + 1, input, chunk => do
    let ((loop, input), chunk) ← chunk.addInputInternal table input
    if loop then addInput fuel input chunk else some (input, chunk)

def shouldInsertNewChunk (input : CompositionInput) : Bool :=
  !chunk.isEmpty &&
    (input.isNewInput || (hasAttribute chunk.attributes END_CHUNK && chunk.pending = [])) &&
    (table.hasNewChunkEntry input.raw || !table.hasSubRules input.raw)

def addCompositionInput (fuel : Nat) (input : CompositionInput) : Option (CompositionInput × CharChunk) :=
  if input.conversion ≠ [] then some (addInputAndConvertedChar table chunk input)
  else if shouldInsertNewChunk table chunk input then some (input, chunk)
  else (addInput table fuel input.raw chunk).map fun r => ({ input with raw := r.1 }, r.2)

/-- Whether the chunk takes what is typed next; all chunks have the table of the composition. -/
def isAppendable (t12r : Transliterator) : Bool := chunk.pending ≠ [] ∧ t12r = chunk.transliterator

def isConvertible (t12r : Transliterator) (input : Bytes) : Bool :=
  chunk.isAppendable t12r &&
    match table.lookUpPrefix (chunk.pending ++ input) with
    | (none, _, _) => false
    | (some _, keyLength, fixed) => (chunk.pending ++ input).length = keyLength && fixed

def combine (left : CharChunk) : CharChunk :=
  { chunk with
    conversion := left.conversion ++ chunk.conversion
    raw := left.raw ++ chunk.raw
    ambiguous :=
      if left.ambiguous = [] then []
      else if chunk.ambiguous = [] then left.ambiguous ++ chunk.pending
      else left.ambiguous ++ chunk.ambiguous
    pending := left.pending ++ chunk.pending }

/-- `GetTransliterator`, where the local transliterator is `none`. -/
def getTransliterator : Option Transliterator → Transliterator
  | none =>
    if hasAttribute chunk.attributes NO_TRANSLITERATION then .conversionString else chunk.transliterator
  | some t12r =>
    if hasAttribute chunk.attributes NO_TRANSLITERATION ∧ (t12r = .halfAscii ∨ t12r = .fullAscii) then
      .conversionString
    else t12r

def getDisplayConverted : Bytes :=
  if chunk.displayAmbiguousAsResult ∧ chunk.ambiguous ≠ [] then chunk.conversion ++ chunk.ambiguous
  else chunk.conversion ++ chunk.pending

variable (transliterators : Transliterators)

def getLength (t12r : Option Transliterator) : Nat :=
  charsLen (transliterators.transliterate (chunk.getTransliterator t12r) (deleteSpecialKeys chunk.raw)
    (deleteSpecialKeys chunk.getDisplayConverted))

def result (t12r : Option Transliterator) : Bytes :=
  transliterators.transliterate (chunk.getTransliterator t12r) (deleteSpecialKeys chunk.raw)
    (deleteSpecialKeys chunk.getDisplayConverted)

def fixedResult (t12r : Option Transliterator) : Bytes :=
  transliterators.transliterate (chunk.getTransliterator t12r) (deleteSpecialKeys chunk.raw)
    (deleteSpecialKeys (chunk.conversion ++
      if chunk.ambiguous ≠ [] then chunk.ambiguous else chunk.pending))

/-- The left chunk and the right one; without result where the position is not within the chunk.
Where the converted text on the right is shorter than `pending_`, the difference wraps, and all of it
is assigned. -/
def splitChunk (t12r : Option Transliterator) (position : Nat) : Option (CharChunk × CharChunk) :=
  if position = 0 ∨ chunk.getLength transliterators t12r ≤ position then none
  else
    let ((rawLhs, rawRhs), (convertedLhs, convertedRhs)) :=
      transliterators.split (chunk.getTransliterator t12r) position (deleteSpecialKeys chunk.raw)
        (deleteSpecialKeys (chunk.conversion ++ chunk.pending))
    let left : CharChunk := { transliterator := chunk.transliterator, raw := rawLhs }
    if chunk.conversion.length < convertedLhs.length then
      some ({ left with
          conversion := chunk.conversion
          pending := convertedLhs.drop chunk.conversion.length },
        { chunk with raw := rawRhs, conversion := [], pending := convertedRhs, ambiguous := [] })
    else
      some ({ left with conversion := convertedLhs },
        { chunk with
          raw := rawRhs
          conversion :=
            if convertedRhs.length < chunk.pending.length then convertedRhs
            else convertedRhs.take (convertedRhs.length - chunk.pending.length) })

end CharChunk

end Mozkey.Composer
