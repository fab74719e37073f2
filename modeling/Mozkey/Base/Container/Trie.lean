import Mozkey.Base.Utf8

/-! `Trie` of `base/container/trie.h`. -/

namespace Mozkey.Base

open Storage

/-- A node: its subtries by their first characters, in the order in which the hash map is walked,
and its data. -/
inductive Trie (α : Type) where
  | node (trie : List (Nat × Trie α)) (data : Option α)

namespace Trie

variable {α : Type}

def empty : Trie α := .node [] none

def subTries : Trie α → List (Nat × Trie α)
  | .node trie _ => trie

def data : Trie α → Option α
  | .node _ data => data

/-- The first character of a key and the rest, as `FindSubTrie` takes them from
`SplitFirstChar32`, whether that returns true or not. -/
def firstChar (key : Bytes) : Nat × Bytes := (splitFirstChar32 key).getD (0, [])

theorem length_firstChar_lt {key : Bytes} (h : key ≠ []) : (firstChar key).2.length < key.length := by
  rw [firstChar]
  cases hsplit : splitFirstChar32 key with
  | none => exact List.length_pos_iff.mpr h
  | some r => exact length_lt_of_splitFirstChar32 hsplit

def find (t : Trie α) (c : Nat) : Option (Trie α) :=
  (t.subTries.find? fun x => x.1 = c).map Prod.snd

def setSubTrie (t : Trie α) (c : Nat) (sub : Trie α) : Trie α :=
  if (t.find c).isSome then
    .node (t.subTries.map fun x => if x.1 = c then (c, sub) else x) t.data
  else .node (t.subTries ++ [(c, sub)]) t.data

def eraseSubTrie (t : Trie α) (c : Nat) : Trie α :=
  .node (t.subTries.filter fun x => x.1 ≠ c) t.data

def addEntry (key : Bytes) (data : α) (t : Trie α) : Trie α :=
  if key = [] then .node t.subTries (some data)
  else
    let sub := (t.find (firstChar key).1).getD empty
    t.setSubTrie (firstChar key).1 (addEntry (firstChar key).2 data sub)
termination_by key.length
decreasing_by exact length_firstChar_lt ‹_›

def deleteEntry (key : Bytes) (t : Trie α) : Bool × Trie α :=
  if key = [] then
    if t.subTries = [] then (true, t) else (false, .node t.subTries none)
  else
    match t.find (firstChar key).1 with
    | none => (false, t)
    | some sub =>
      let (deleted, sub) := deleteEntry (firstChar key).2 sub
      if deleted then
        let t := t.eraseSubTrie (firstChar key).1
        (t.subTries.isEmpty, t)
      else (false, t.setSubTrie (firstChar key).1 sub)
termination_by key.length
decreasing_by exact length_firstChar_lt ‹_›

def lookUp (key : Bytes) (t : Trie α) : Option α :=
  if key = [] then t.data
  else
    match t.find (firstChar key).1 with
    | none => none
    | some sub => lookUp (firstChar key).2 sub
termination_by key.length
decreasing_by exact length_firstChar_lt ‹_›

/-- The match at a node from which the key does not lead on. -/
def ownMatch (data : Option α) (t : Trie α) : Bool × Option α × Nat :=
  if t.data.isSome then (true, t.data, 0) else (false, data, 0)

/-- `LongestMatch`: whether there is a match, and what is left in `data` and `key_length`. -/
def longestMatch (key : Bytes) (data : Option α) (t : Trie α) : Bool × Option α × Nat :=
  if key = [] then t.ownMatch data
  else
    match t.find (firstChar key).1 with
    | none => t.ownMatch data
    | some sub =>
      let data := if t.data.isSome then t.data else data
      let (found, data, keyLength) := longestMatch (firstChar key).2 data sub
      if found then (true, data, keyLength + (key.length - (firstChar key).2.length))
      else (t.data.isSome, data, keyLength)
termination_by key.length
decreasing_by exact length_firstChar_lt ‹_›

/-- `LookUpPrefix`: the data where the key leads no further, the length of the key to there, and
`fixed`. -/
def lookUpPrefix (key : Bytes) (t : Trie α) : Option α × Nat × Bool :=
  if key = [] then (t.data, 0, t.data.isNone || t.subTries.isEmpty)
  else
    match t.find (firstChar key).1 with
    | none => (t.data, 0, t.data.isNone || t.subTries.isEmpty)
    | some sub =>
      let (data, keyLength, fixed) := lookUpPrefix (firstChar key).2 sub
      (data, keyLength + (key.length - (firstChar key).2.length), fixed)
termination_by key.length
decreasing_by exact length_firstChar_lt ‹_›

mutual

def allData : Trie α → List α
  | .node trie data => data.toList ++ allSubData trie

def allSubData : List (Nat × Trie α) → List α
  | [] => []
  | (_, t) :: trie => allData t ++ allSubData trie

end

def lookUpPredictiveAll (key : Bytes) (t : Trie α) : List α :=
  if key = [] then t.allData
  else
    match t.find (firstChar key).1 with
    | none => []
    | some sub => lookUpPredictiveAll (firstChar key).2 sub
termination_by key.length
decreasing_by exact length_firstChar_lt ‹_›

def hasSubTrie (key : Bytes) (t : Trie α) : Bool :=
  if key = [] then false
  else
    match t.find (firstChar key).1 with
    | none => false
    | some sub => (firstChar key).2.isEmpty || hasSubTrie (firstChar key).2 sub
termination_by key.length
decreasing_by exact length_firstChar_lt ‹_›

/-- The changes of a run, with keys that are valid UTF-8. -/
inductive Op (α : Type) where
  | addEntry (key : List Char) (data : α)
  | deleteEntry (key : List Char)

def step (t : Trie α) : Op α → Trie α
  | .addEntry key data => t.addEntry (utf8 key) data
  | .deleteEntry key => (t.deleteEntry (utf8 key)).2

def run (ops : List (Op α)) : Trie α := ops.foldl step empty

end Trie

end Mozkey.Base
