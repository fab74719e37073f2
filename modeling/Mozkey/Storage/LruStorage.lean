import Mathlib
import Mozkey.Storage.Louds.BitStream

/-! `LruStorage` of `storage/lru_storage.cc`.  A pointer into the mapped file is the index of an
item, a list iterator is the number of its node, and an operation without result is one that would
dereference an iterator of no node. -/

namespace Mozkey.Storage

/-- An item of the mapped file, with a value of `n` bytes. -/
structure Item (n : Nat) where
  fp : UInt64
  timestamp : UInt32
  value : Vector UInt8 n
  deriving DecidableEq

def Item.zero (n : Nat) : Item n := ⟨0, 0, Vector.replicate n 0⟩

/-- A storage file: its header, where the value size is `n`, and its items. -/
structure StorageFile (n : Nat) where
  size : Nat
  seed : UInt32
  items : List (Item n)
  deriving DecidableEq

namespace StorageFile

variable {n : Nat}

def kMaxLruSize : Nat := 1000000

def kMaxValueSize : Nat := 1024

def createStorageFile (n size : Nat) (seed : UInt32) : Option (StorageFile n) :=
  if n = 0 ∨ n > kMaxValueSize then none
  else if size = 0 ∨ size > kMaxLruSize then none
  else if n % 4 ≠ 0 then none
  else some { size, seed, items := List.replicate size (Item.zero n) }

variable (file : StorageFile n)

def item (i : Nat) : Item n := file.items.getD i (Item.zero n)

def setItem (i : Nat) (x : Item n) : StorageFile n := { file with items := file.items.set i x }

end StorageFile

structure LruStorage (n : Nat) where
  file : StorageFile n
  nextItem : Nat
  lruList : List (Nat × Nat)
  lruMap : AList fun _ : UInt64 => Nat
  nextNode : Nat

namespace LruStorage

variable {n : Nat}

/-- `CompareByTimeStamp`, as the order in which a stable sort leaves two pointers as they are. -/
abbrev SortsBefore (file : StorageFile n) (i j : Nat) : Prop :=
  (file.item j).timestamp ≤ (file.item i).timestamp

def openLoop : List Nat → Option Nat → LruStorage n → Option Nat × LruStorage n
  | [], next, s => (next, s)
  | i :: ary, next, s =>
    if (s.file.item i).timestamp ≠ 0 then
      openLoop ary next { s with
        lruList := s.lruList ++ [(s.nextNode, i)]
        lruMap := s.lruMap.insert (s.file.item i).fp s.nextNode
        nextNode := s.nextNode + 1 }
    else openLoop ary (next <|> some i) s

def openFile (file : StorageFile n) : Option (LruStorage n) :=
  if n % 4 ≠ 0 then none
  else if file.size = 0 ∨ file.size > StorageFile.kMaxLruSize then none
  else if n = 0 ∨ n > StorageFile.kMaxValueSize then none
  else if file.items.length ≠ file.size then none
  else
    let ary := (List.range file.items.length).insertionSort (SortsBefore file)
    let (next, s) := openLoop ary none
      { file, nextItem := 0, lruList := [], lruMap := ∅, nextNode := 0 }
    some { s with nextItem := next.getD file.items.length }

variable (s : LruStorage n)

def usedSize : Nat := s.lruList.length

def deref (node : Nat) : Option Nat := (s.lruList.find? fun x => x.1 = node).map Prod.snd

def spliceToFront (node : Nat) : LruStorage n :=
  match s.lruList.find? fun x => x.1 = node with
  | some x => { s with lruList := x :: s.lruList.filter fun x => x.1 ≠ node }
  | none => s

def setItem (i : Nat) (x : Item n) : LruStorage n := { s with file := s.file.setItem i x }

def lookup (fp : UInt64) : Option (Vector UInt8 n) := do
  let node ← s.lruMap.lookup fp
  let i ← s.deref node
  some (s.file.item i).value

def touch (now : UInt32) (fp : UInt64) : Option (Bool × LruStorage n) :=
  match s.lruMap.lookup fp with
  | none => some (false, s)
  | some node => do
    let i ← s.deref node
    let s := s.setItem i { s.file.item i with timestamp := now }
    some (true, s.spliceToFront node)

def insert (now : UInt32) (fp : UInt64) (value : Option (Vector UInt8 n)) :
    Option (Bool × LruStorage n) :=
  match value with
  | none => some (false, s)
  | some value =>
    match s.lruMap.lookup fp with
    | some node => do
      let i ← s.deref node
      let s := s.setItem i ⟨fp, now, value⟩
      some (true, s.spliceToFront node)
    | none =>
      if s.lruMap.entries.length ≥ s.file.size ∨ s.nextItem = s.file.items.length then do
        let (node, i) ← s.lruList.getLast?
        let s := { s with lruMap := s.lruMap.erase (s.file.item i).fp }
        let s := s.spliceToFront node
        let s := s.setItem i ⟨fp, now, value⟩
        some (true, { s with lruMap := s.lruMap.insert fp node })
      else if s.nextItem < s.file.items.length then
        let s := s.setItem s.nextItem ⟨fp, now, value⟩
        some (true, { s with
          lruList := (s.nextNode, s.nextItem) :: s.lruList
          lruMap := s.lruMap.insert fp s.nextNode
          nextNode := s.nextNode + 1
          nextItem := s.nextItem + 1 })
      else some (false, s)

def tryInsert (now : UInt32) (fp : UInt64) (value : Vector UInt8 n) :
    Option (Bool × LruStorage n) :=
  match s.lruMap.lookup fp with
  | some node => do
    let i ← s.deref node
    let s := s.setItem i ⟨fp, now, value⟩
    some (true, s.spliceToFront node)
  | none => some (true, s)

/-- The part of `Delete` that moves the last item to the place of the deleted one. -/
def moveLast (deleted : Nat) : Option (LruStorage n) :=
  if s.nextItem ≠ deleted then do
    let s := s.setItem deleted (s.file.item s.nextItem)
    let moved ← s.lruMap.lookup (s.file.item s.nextItem).fp
    let _ ← s.deref moved
    some { s with lruList := s.lruList.map fun x => if x.1 = moved then (x.1, deleted) else x }
  else some s

def deleteNode (fp : UInt64) (node : Nat) : Option (Bool × LruStorage n) :=
  if s.nextItem < 1 then some (false, s)
  else do
    let s := { s with nextItem := s.nextItem - 1 }
    let deleted ← s.deref node
    let s := { s with
      lruMap := s.lruMap.erase fp, lruList := s.lruList.filter fun x => x.1 ≠ node }
    let s ← s.moveLast deleted
    some (true, s.setItem s.nextItem (Item.zero n))

def delete (fp : UInt64) : Option (Bool × LruStorage n) :=
  match s.lruMap.lookup fp with
  | none => some (true, s)
  | some node => s.deleteNode fp node

def deleteLoop (timestamp : UInt32) : Nat → Nat → LruStorage n → Option (Nat × LruStorage n)
  | 0, deleted, s => if s.lruList = [] then some (deleted, s) else none
  | fuel + 1, deleted, s =>
    match s.lruList.getLast? with
    | none => some (deleted, s)
    | some (node, i) =>
      if (s.file.item i).timestamp ≥ timestamp then some (deleted, s)
      else do
        let (ok, s) ← s.deleteNode (s.file.item i).fp node
        if ok then deleteLoop timestamp fuel (deleted + 1) s else some (deleted, s)

def deleteElementsBefore (timestamp : UInt32) : Option (Nat × LruStorage n) :=
  if s.file.items.length = 0 then some (0, s)
  else deleteLoop timestamp s.lruList.length 0 s

def clear : Option (Bool × LruStorage n) :=
  if s.lruList = [] then some (true, s)
  else do
    let items := List.replicate s.file.items.length (Item.zero n)
    let s ← openFile { s.file with items }
    some (true, s)

def reopen : Option (Bool × LruStorage n) := do
  let s ← openFile s.file
  some (true, s)

inductive Op (n : Nat) where
  | insert (key : Bytes) (value : Option (Vector UInt8 n))
  | tryInsert (key : Bytes) (value : Vector UInt8 n)
  | touch (key : Bytes)
  | delete (key : Bytes)
  | deleteElementsBefore (timestamp : UInt32)
  | clear
  | reopen

inductive Answer where
  | ok (b : Bool)
  | deleted (count : Nat)
  deriving DecidableEq

/-- A call at the time `now` of the clock, in seconds, which the storage keeps as a `uint32_t`;
`fingerprint` is `LegacyFingerprintWithSeed`. -/
def step (fingerprint : Bytes → UInt32 → UInt64) (now : Nat) :
    Op n → Option (Answer × LruStorage n)
  | .insert key value =>
    (s.insert (UInt32.ofNat now) (fingerprint key s.file.seed) value).map (Prod.map .ok id)
  | .tryInsert key value =>
    (s.tryInsert (UInt32.ofNat now) (fingerprint key s.file.seed) value).map (Prod.map .ok id)
  | .touch key =>
    (s.touch (UInt32.ofNat now) (fingerprint key s.file.seed)).map (Prod.map .ok id)
  | .delete key => (s.delete (fingerprint key s.file.seed)).map (Prod.map .ok id)
  | .deleteElementsBefore timestamp =>
    (s.deleteElementsBefore timestamp).map (Prod.map .deleted id)
  | .clear => s.clear.map (Prod.map .ok id)
  | .reopen => s.reopen.map (Prod.map .ok id)

def run (fingerprint : Bytes → UInt32 → UInt64) :
    List (Nat × Op n) → LruStorage n → Option (List Answer × LruStorage n)
  | [], s => some ([], s)
  | (now, op) :: calls, s => do
    let (answer, s) ← s.step fingerprint now op
    let (answers, s) ← run fingerprint calls s
    some (answer :: answers, s)

end LruStorage

end Mozkey.Storage
