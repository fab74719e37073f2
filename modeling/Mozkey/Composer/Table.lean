import Mozkey.Base.Container.Trie
import Mozkey.Base.Util
import Mozkey.Lib.Delimited

/-! The romaji table of `composer/table.cc`, with the special keys of `composer/special_key.cc`. -/

namespace Mozkey.Composer

open Storage Base Lib.Delimited

section specialKeys

def kSpecialKeyBegin : Nat := 0xf000

def kSpecialKeyEnd : Nat := 0xf8ff

def kSpecialKeyOpen : UInt8 := 0x0f

def kSpecialKeyClose : UInt8 := 0x0e

def isSpecialKey (c : Nat) : Bool := kSpecialKeyBegin ≤ c && c ≤ kSpecialKeyEnd

/-- `FindBlock`: the positions of the first opening byte and of the first closing one after it. -/
def findBlock (input : Bytes) (opening closing : UInt8) : Option (Nat × Nat) := do
  let openPos ← input.findIdx? (· == opening)
  let distance ← (input.drop openPos).findIdx? (· == closing)
  return (openPos, openPos + distance)

def braceOpen : UInt8 := 0x7b

def braceClose : UInt8 := 0x7d

/-- The loop of `ParseBlock`, with the state that the callback changes. -/
def parseBlockLoop {σ : Type} (callback : Bytes → σ → Bytes × σ) : Nat → Bytes → σ → Bytes × σ
  | 0, input, s => (input, s)
  | fuel + 1, input, s =>
    match findBlock input braceOpen braceClose with
    | none => (input, s)
    | some (openPos, closePos) =>
      let key := (input.drop (openPos + 1)).take (closePos - openPos - 1)
      let (part, s) := if key = [braceOpen] then ([braceOpen], s) else callback key s
      let (rest, s) := parseBlockLoop callback fuel (input.drop (closePos + 1)) s
      (input.take openPos ++ part ++ rest, s)

/-- `map_`: the special keys, in the order in which they were registered. -/
abbrev SpecialKeyMap := List Bytes

/-- The character that stands for the special key of a number. -/
def specialKey (index : Nat) : Bytes := codepointToUtf8 (min (kSpecialKeyBegin + index) kSpecialKeyEnd)

def SpecialKeyMap.register (keys : SpecialKeyMap) (input : Bytes) : Bytes × SpecialKeyMap :=
  parseBlockLoop (fun key keys =>
    if keys.contains key then (specialKey (keys.idxOf key), keys)
    else (specialKey keys.length, keys ++ [key])) input.length input keys

def trimLeadingSpecialKey (input : Bytes) : Bytes :=
  let (first, rest) := Trie.firstChar input
  if isSpecialKey first then rest
  else if ¬ [kSpecialKeyOpen].isPrefixOf input then input
  else
    match (input.drop 1).findIdx? (· == kSpecialKeyClose) with
    | none => input
    | some distance => input.drop (distance + 2)

/-- The part of `DeleteSpecialKeys` on the special keys that are not registered. -/
def deleteBlocks : Nat → Bytes → Bytes
  | 0, input => input
  | fuel + 1, input =>
    match findBlock input kSpecialKeyOpen kSpecialKeyClose with
    | none => input
    | some (openPos, closePos) => input.take openPos ++ deleteBlocks fuel (input.drop (closePos + 1))

def deleteSpecialKeys (input : Bytes) : Bytes :=
  let output := deleteBlocks input.length input
  let codepoints := utf8ToUtf32 output
  if codepoints.any isSpecialKey then
    (codepoints.filter fun c => !isSpecialKey c).flatMap codepointToUtf8
  else output

end specialKeys

section attributes

abbrev TableAttributes := UInt32

def NO_TABLE_ATTRIBUTE : TableAttributes := 0

def NEW_CHUNK : TableAttributes := 1

def NO_TRANSLITERATION : TableAttributes := 2

def DIRECT_INPUT : TableAttributes := 4

def END_CHUNK : TableAttributes := 8

def DISPLAY_AMBIGUOUS_RESULT : TableAttributes := 16

def hasAttribute (attributes flag : TableAttributes) : Bool := attributes &&& flag != 0

def attributeNames : List (String × TableAttributes) :=
  [("NewChunk", NEW_CHUNK), ("NoTransliteration", NO_TRANSLITERATION),
    ("DirectInput", DIRECT_INPUT), ("EndChunk", END_CHUNK),
    ("DisplayAmbiguousResult", DISPLAY_AMBIGUOUS_RESULT)]

def kAttributeDelimiter : UInt8 := 0x20

def parseAttributes (input : Bytes) : TableAttributes :=
  (splitFrom kAttributeDelimiter [] input).foldl (fun attributes string =>
    match attributeNames.find? fun x => utf8 x.1.toList = string with
    | some (_, flag) => attributes ||| flag
    | none => attributes) NO_TABLE_ATTRIBUTE

end attributes

structure Entry where
  input : Bytes
  result : Bytes
  pending : Bytes
  attributes : TableAttributes
  deriving DecidableEq

structure Table where
  entries : Trie Entry
  specialKeyMap : SpecialKeyMap
  caseSensitive : Bool

namespace Table

def new : Table where
  entries := Trie.empty
  specialKeyMap := ["?", "*", "<", "!"].map fun key => utf8 key.toList
  caseSensitive := false

variable (table : Table)

def normalized (input : Bytes) : Bytes :=
  if table.caseSensitive then input else lowerString input

def lookUp (input : Bytes) : Option Entry := table.entries.lookUp (table.normalized input)

def lookUpPrefix (input : Bytes) : Option Entry × Nat × Bool :=
  table.entries.lookUpPrefix (table.normalized input)

def hasSubRules (input : Bytes) : Bool := table.entries.hasSubTrie (table.normalized input)

/-- The loop of `IsLoopingEntry`; without result it has not ended yet. -/
def isLoopingEntryLoop (input : Bytes) : Nat → Bytes → Option Bool
  | 0, _ => none
  | fuel + 1, key =>
    if input.isPrefixOf key then some true
    else
      match table.lookUpPrefix key with
      | (none, _, _) => some false
      | (some entry, keyLength, _) =>
        let key := entry.pending ++ key.drop keyLength
        if key = [] then some false else isLoopingEntryLoop input fuel key

def isLoopingEntry (fuel : Nat) (input pending : Bytes) : Option Bool :=
  if input = [] ∨ pending = [] then some false else table.isLoopingEntryLoop input fuel pending

def kMaxSize : Nat := 300

def kNewChunkPrefix : Bytes := [0x09]

def hasNewChunkEntry (input : Bytes) : Bool :=
  input ≠ [] ∧ 1 < (table.lookUpPrefix (kNewChunkPrefix ++ input)).2.1

/-- `AddRuleWithAttributes` after its first step: the entry that is returned, and the table. -/
def insertRule (fuel : Nat) (escapedInput output escapedPending : Bytes)
    (attributes : TableAttributes) : Option (Option Entry × Table) :=
  if kMaxSize ≤ escapedInput.length ∨ kMaxSize ≤ output.length ∨
      kMaxSize ≤ escapedPending.length then some (none, table)
  else do
    let (input, keys) := table.specialKeyMap.register escapedInput
    let (pending, keys) := keys.register escapedPending
    let table := { table with specialKeyMap := keys }
    let looping ← table.isLoopingEntry fuel input pending
    if looping then return (none, table)
    let entry := { input, result := output, pending, attributes }
    return (some entry, { table with
      entries := table.entries.addEntry input entry
      caseSensitive := table.caseSensitive ||
        (utf8ToUtf32 (deleteSpecialKeys input)).any fun c => 0x41 ≤ c && c ≤ 0x5a })

/-- The new entry takes the place of one with its input.  A rule of a new chunk is added a second
time, with an input that begins with a tabulator. -/
def addRuleWithAttributes (fuel : Nat) (escapedInput output escapedPending : Bytes)
    (attributes : TableAttributes) : Option (Option Entry × Table) := do
  let table ←
    if hasAttribute attributes NEW_CHUNK then
      (table.insertRule fuel (kNewChunkPrefix ++ escapedInput) output escapedPending
        NO_TABLE_ATTRIBUTE).map Prod.snd
    else some table
  table.insertRule fuel escapedInput output escapedPending attributes

def addRule (fuel : Nat) (input output pending : Bytes) : Option (Option Entry × Table) :=
  table.addRuleWithAttributes fuel input output pending NO_TABLE_ATTRIBUTE

def loadLine (fuel : Nat) (line : Bytes) : Option Table :=
  match splitFrom 0x09 [] (chopReturns line) with
  | [input, output, pending, attributes] =>
    (table.addRuleWithAttributes fuel input output pending (parseAttributes attributes)).map Prod.snd
  | [input, output, pending] => (table.addRule fuel input output pending).map Prod.snd
  | [input, output] => (table.addRule fuel input output []).map Prod.snd
  | _ => some table

end Table

def loadFromString (fuel : Nat) (text : Bytes) : Option Table :=
  (splitFrom 0x0a [] text).foldlM (fun table line => table.loadLine fuel line) Table.new

end Mozkey.Composer
