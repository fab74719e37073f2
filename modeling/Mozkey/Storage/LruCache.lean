import Mozkey.Lib.LinkedList

/-! `LruCache` of `storage/lru_cache.h`.  The elements of all blocks stand one after another in a
list, and a pointer to an element is its position there.  An operation without result is one whose
`CHECK` fails. -/

namespace Mozkey.Storage

open Lib

def sizeAdd (a b : Nat) : Nat := (a + b) % 2 ^ 64

def sizeSub (a b : Nat) : Nat := (a + 2 ^ 64 - b) % 2 ^ 64

def sizeShiftLeft (a k : Nat) : Nat := (a <<< k) % 2 ^ 64

structure Element (κ ν : Type) where
  next : Option Nat
  prev : Option Nat
  key : κ
  value : ν
  deriving DecidableEq

/-- The members of `LruCache` that count its blocks. -/
structure Blocks where
  maxElements : Nat
  blockCount : Nat
  blockCapacity : Nat
  nextBlockSize : Nat
  deriving DecidableEq

namespace Blocks

def maxBlocks : Nat := 10

/-- The condition under which `AddBlock` allocates. -/
def HasRoom (b : Blocks) : Prop := b.blockCount < maxBlocks ∧ b.blockCapacity < b.maxElements

instance (b : Blocks) : Decidable b.HasRoom := inferInstanceAs (Decidable (_ ∧ _))

/-- How `AddBlock` counts the new block and chooses the size of the one after it. -/
def grow (b : Blocks) : Blocks :=
  let blockCapacity := sizeAdd b.blockCapacity b.nextBlockSize
  let blockCount := b.blockCount + 1
  let blocksRemaining := maxBlocks - blockCount
  let nextBlockSize :=
    if blocksRemaining > 0 then
      let doubled := sizeShiftLeft b.nextBlockSize 1
      let elementsRemaining := sizeSub b.maxElements blockCapacity
      let bounded := if doubled > elementsRemaining / blocksRemaining then
        elementsRemaining / blocksRemaining else doubled
      if sizeAdd blockCapacity bounded > b.maxElements then sizeSub b.maxElements blockCapacity
      else bounded
    else b.nextBlockSize
  { b with blockCount, blockCapacity, nextBlockSize }

/-- The loop of the constructor, which shifts until the last block may be large enough. -/
def firstBlockSize (maxElements : Nat) : Nat → Nat → Option Nat
  | 0, _ => none
  | fuel + 1, size =>
    if sizeShiftLeft size maxBlocks < maxElements then
      firstBlockSize maxElements fuel (sizeShiftLeft size 1)
    else some size

def init (fuel maxElements : Nat) : Option Blocks :=
  (if maxElements ≤ 128 then some maxElements else firstBlockSize maxElements fuel 64).map
    fun nextBlockSize => { maxElements, blockCount := 0, blockCapacity := 0, nextBlockSize }

end Blocks

structure LruCache (κ ν : Type) extends Blocks where
  table : AList fun _ : κ => Nat
  freeList : Option Nat
  lruHead : Option Nat
  lruTail : Option Nat
  elements : List (Element κ ν)

namespace LruCache

variable {κ ν : Type}

/-- The constructor; its loop may run `fuel` times. -/
def new (κ ν : Type) (fuel maxElements : Nat) : Option (LruCache κ ν) := do
  let blocks ← Blocks.init fuel maxElements
  some { toBlocks := blocks, table := ∅, freeList := none, lruHead := none, lruTail := none,
         elements := [] }

variable (c : LruCache κ ν)

def next (e : Nat) : Option Nat := c.elements[e]?.bind Element.next

def prev (e : Nat) : Option Nat := c.elements[e]?.bind Element.prev

def setNext (e : Nat) (next : Option Nat) : LruCache κ ν :=
  { c with elements := c.elements.modify e fun element => { element with next } }

def setPrev (e : Nat) (prev : Option Nat) : LruCache κ ν :=
  { c with elements := c.elements.modify e fun element => { element with prev } }

/-- Writes through a pointer that is compared with `nullptr` first. -/
def setNextOf (e : Option Nat) (next : Option Nat) : LruCache κ ν :=
  match e with
  | some e => c.setNext e next
  | none => c

def setPrevOf (e : Option Nat) (prev : Option Nat) : LruCache κ ν :=
  match e with
  | some e => c.setPrev e prev
  | none => c

def setKey (e : Nat) (key : κ) : LruCache κ ν :=
  { c with elements := c.elements.modify e fun element => { element with key } }

def setValue (e : Nat) (value : ν) : LruCache κ ν :=
  { c with elements := c.elements.modify e fun element => { element with value } }

def pushFreeList (e : Nat) : LruCache κ ν :=
  { (c.setPrev e none).setNext e c.freeList with freeList := some e }

def popFreeList : Option (Option Nat × LruCache κ ν) :=
  match c.freeList with
  | none => some (none, c)
  | some r => do
    guard (c.prev r = none)
    let c := { c with freeList := c.next r }
    let c := c.setPrevOf c.freeList none
    some (some r, c.setNext r none)

section

variable [Inhabited κ] [Inhabited ν]

def addElements : Nat → LruCache κ ν → LruCache κ ν
  | 0, c => c
  | n + 1, c =>
    let element := { next := c.freeList, prev := none, key := default, value := default }
    addElements n
      { c with elements := c.elements ++ [element], freeList := some c.elements.length }

def addBlock : LruCache κ ν :=
  if c.HasRoom then { addElements c.nextBlockSize c with toBlocks := c.grow } else c

def nextFreeElement : Option (Option Nat × LruCache κ ν) := do
  let (r, c) ← c.popFreeList
  match r with
  | some e => some (some e, c)
  | none => c.addBlock.popFreeList

end

def removeFromLRU (e : Nat) : LruCache κ ν :=
  let c := { c with lruHead := if c.lruHead = some e then c.next e else c.lruHead }
  let c := { c with lruTail := if c.lruTail = some e then c.prev e else c.lruTail }
  let c := c.setNextOf (c.prev e) (c.next e)
  let c := c.setPrevOf (c.next e) (c.prev e)
  (c.setPrev e none).setNext e none

def pushLRUHead (e : Nat) : LruCache κ ν :=
  if c.lruHead = some e then c
  else
    let c := c.removeFromLRU e
    let c := c.setNext e c.lruHead
    let c := { c with lruHead := some e }
    let c := c.setPrevOf (c.next e) (some e)
    { c with lruTail := if c.lruTail = none then some e else c.lruTail }

variable [DecidableEq κ]

def lookupInternal (key : κ) : Option Nat := c.table.lookup key

def evict (e : Option Nat) : Option (Bool × LruCache κ ν) :=
  match e with
  | none => some (false, c)
  | some e => do
    let element ← c.elements[e]?
    guard (c.table.lookup element.key).isSome
    let c := { c with table := c.table.erase element.key }
    some (true, (c.removeFromLRU e).pushFreeList e)

/-- The first part of `Insert`: an element that holds the key already is evicted. -/
def evictKey (key : κ) : Option (LruCache κ ν) :=
  match c.lookupInternal key with
  | some e => do
    let (erased, c) ← c.evict (some e)
    guard erased
    some c
  | none => some c

/-- The second part of `Insert`: a free element, or that of the tail. -/
def takeElement [Inhabited κ] [Inhabited ν] : Option (Nat × LruCache κ ν) := do
  let (e, c) ← c.nextFreeElement
  match e with
  | some e => some (e, c)
  | none => do
    let (erased, c) ← c.evict c.lruTail
    guard erased
    let (e, c) ← c.nextFreeElement
    let e ← e
    some (e, c)

/-- `Insert(key)`, which leaves the value of the element to its caller. -/
def insertKey [Inhabited κ] [Inhabited ν] (key : κ) : Option (Nat × LruCache κ ν) := do
  let c ← c.evictKey key
  let (e, c) ← c.takeElement
  let c := { c.setKey e key with table := c.table.insert key e }
  some (e, c.pushLRUHead e)

def insert [Inhabited κ] [Inhabited ν] (key : κ) (value : ν) : Option (LruCache κ ν) := do
  let (e, c) ← c.insertKey key
  some (c.setValue e value)

/-- `MutableLookup` and `Lookup`: the value, and the cache with the element at its head. -/
def mutableLookup (key : κ) : Option ν × LruCache κ ν :=
  match c.lookupInternal key with
  | some e => (c.elements[e]?.map Element.value, c.pushLRUHead e)
  | none => (none, c)

def lookupWithoutInsert (key : κ) : Option ν := do
  let e ← c.lookupInternal key
  c.elements[e]?.map Element.value

def erase (key : κ) : Option (Bool × LruCache κ ν) := c.evict (c.lookupInternal key)

/-- The loop of `Clear`: the iterator holds the current element and, read before the element is
pushed, the next one. -/
def clearLoop : Nat → Option Nat → Option Nat → LruCache κ ν → Option (LruCache κ ν)
  | _, none, _, c => some c
  | 0, some _, _, _ => none
  | fuel + 1, some e, following, c =>
    let c := c.pushFreeList e
    clearLoop fuel following (following.bind c.next) c

def clear : Option (LruCache κ ν) := do
  let c := { c with table := ∅ }
  let c ← clearLoop c.elements.length c.lruHead (c.lruHead.bind c.next) c
  some { c with lruHead := none, lruTail := none }

def size : Nat := c.table.entries.length

inductive Op (κ ν : Type) where
  | insert (key : κ) (value : ν)
  | lookup (key : κ)
  | lookupWithoutInsert (key : κ)
  | erase (key : κ)
  | clear

inductive Answer (ν : Type) where
  | done
  | value (v : Option ν)
  | erased (b : Bool)

def step [Inhabited κ] [Inhabited ν] : Op κ ν → Option (Answer ν × LruCache κ ν)
  | .insert key value => do
    let c ← c.insert key value
    some (.done, c)
  | .lookup key => some (.value (c.mutableLookup key).1, (c.mutableLookup key).2)
  | .lookupWithoutInsert key => some (.value (c.lookupWithoutInsert key), c)
  | .erase key => do
    let (b, c) ← c.erase key
    some (.erased b, c)
  | .clear => do
    let c ← c.clear
    some (.done, c)

def run [Inhabited κ] [Inhabited ν] : List (Op κ ν) → LruCache κ ν →
    Option (List (Answer ν) × LruCache κ ν)
  | [], c => some ([], c)
  | op :: ops, c => do
    let (answer, c) ← c.step op
    let (answers, c) ← run ops c
    some (answer :: answers, c)

end LruCache

end Mozkey.Storage
