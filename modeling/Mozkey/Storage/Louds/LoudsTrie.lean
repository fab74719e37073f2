import Mozkey.Storage.Louds.Louds
import Mozkey.Storage.Louds.LoudsTrieBuilder

/-! `LoudsTrie` of `storage/louds`, and its searches on a trie that stores a list of words. -/

namespace Mozkey.Storage

open Lib

def toInt32 (value : Nat) : Int := if value < 2 ^ 31 then value else value - 2 ^ 32

structure LoudsTrie where
  louds : Louds
  terminalBitVector : SimpleSuccinctBitVectorIndex
  edgeCharacter : Bytes
  deriving DecidableEq

namespace LoudsTrie

def kMaxDepth : Nat := 256

/-- `Open`, with its checks; a size below zero puts the parts outside of the image. -/
def openImage (image : Bytes) (loudsLb0CacheSize loudsLb1CacheSize loudsSelect0CacheSize
    loudsSelect1CacheSize termvecLb1CacheSize : Nat) : Option LoudsTrie := do
  let loudsSize := toInt32 (← loadUint32 image 0)
  let terminalSize := toInt32 (← loadUint32 image 4)
  let numCharacterBits := toInt32 (← loadUint32 image 8)
  let edgeCharacterSize := toInt32 (← loadUint32 image 12)
  if numCharacterBits ≠ 8 ∨ edgeCharacterSize ≤ 0 then none
  else if loudsSize < 0 ∨ terminalSize < 0 ∨ (image.length : Int) < 16 + loudsSize + terminalSize
  then none
  else
    let loudsImage := image.drop 16
    let terminalImage := loudsImage.drop loudsSize.toNat
    let louds ← Louds.init (loudsImage.take loudsSize.toNat) loudsLb0CacheSize loudsLb1CacheSize
      loudsSelect0CacheSize loudsSelect1CacheSize
    let terminalBitVector ← SimpleSuccinctBitVectorIndex.init 32
      (terminalImage.take terminalSize.toNat) 0 termvecLb1CacheSize
    some { louds, terminalBitVector, edgeCharacter := terminalImage.drop terminalSize.toNat }

variable (trie : LoudsTrie)

def isValidNode (node : Louds.Node) : Option Bool := trie.louds.isValidNode node

def isTerminalNode (node : Louds.Node) : Option Bool := trie.terminalBitVector.get (node.nodeId - 1)

def getEdgeLabelToParentNode (node : Louds.Node) : Option UInt8 :=
  trie.edgeCharacter[node.nodeId - 1]?

def getKeyIdOfTerminalNode (node : Louds.Node) : Option Nat :=
  trie.terminalBitVector.rank1 (node.nodeId - 1)

def getTerminalNodeFromKeyId (keyId : Nat) : Option Louds.Node := do
  let i ← trie.terminalBitVector.select1 (keyId + 1)
  trie.louds.initNodeFromNodeId (i + 1)

/-- The way up to the root, which fills a buffer with that much room backward. -/
def restoreLoop : Nat → Louds.Node → Bytes → Option Bytes
  | room, node, key =>
    if Louds.isRoot node then some key
    else match room with
      | 0 => none
      | room + 1 => do
        let label ← trie.getEdgeLabelToParentNode node
        let parent ← trie.louds.moveToParent node
        restoreLoop room parent (label :: key)

def restoreKeyStringOfNode (node : Louds.Node) : Option Bytes := trie.restoreLoop kMaxDepth node []

def restoreKeyString (keyId : Int) : Option Bytes :=
  if keyId < 0 then some []
  else do
    let node ← trie.getTerminalNodeFromKeyId keyId.toNat
    trie.restoreKeyStringOfNode node

def moveToChildLoop (label : UInt8) : Nat → Louds.Node → Option (Bool × Louds.Node)
  | 0, _ => none
  | fuel + 1, node => do
    if ← trie.isValidNode node then
      if (← trie.getEdgeLabelToParentNode node) = label then some (true, node)
      else moveToChildLoop label fuel (Louds.moveToNextSibling node)
    else some (false, node)

/-- `MoveToChildByLabel`. Every step of its loop reads another bit of the structure. -/
def moveToChildByLabel (label : UInt8) (node : Louds.Node) : Option (Bool × Louds.Node) := do
  let node ← trie.louds.moveToFirstChild node
  trie.moveToChildLoop label (8 * trie.louds.index.data.length + 1) node

def traverse : Bytes → Louds.Node → Option (Bool × Louds.Node)
  | [], node => some (true, node)
  | c :: key, node => do
    match ← trie.moveToChildByLabel c node with
    | (true, node) => traverse key node
    | (false, node) => some (false, node)

def hasKey (key : Bytes) : Option Bool := do
  match ← trie.traverse key {} with
  | (true, node) => trie.isTerminalNode node
  | (false, _) => some false

def exactSearch (key : Bytes) : Option Int := do
  match ← trie.traverse key {} with
  | (true, node) =>
    if ← trie.isTerminalNode node then (trie.getKeyIdOfTerminalNode node).map Int.ofNat
    else some (-1)
  | (false, _) => some (-1)

/-- The calls of the callback, by `prefix_len` and `node`, behind the first `i` bytes. -/
def prefixSearchLoop : Bytes → Nat → Louds.Node → Option (List (Nat × Louds.Node))
  | [], _, _ => some []
  | c :: key, i, node => do
    match ← trie.moveToChildByLabel c node with
    | (false, _) => some []
    | (true, node) =>
      let terminal ← trie.isTerminalNode node
      let calls ← prefixSearchLoop key (i + 1) node
      some (if terminal then (i + 1, node) :: calls else calls)

def prefixSearch (key : Bytes) : Option (List (Nat × Louds.Node)) := trie.prefixSearchLoop key 0 {}

end LoudsTrie

section

variable {words : List Bytes} {p q : Bytes}

theorem nodup_prefixes (words : List Bytes) : (prefixes words).Nodup := nodup_levels _

theorem mem_prefixes_concat {c : UInt8} :
    p ++ [c] ∈ prefixes words ↔ p ++ [c] ∈ extensions words p := by
  rw [mem_prefixes, mem_extensions]
  constructor
  · rintro (h | ⟨w, hw, hp⟩)
    · simp at h
    · exact ⟨c, rfl, w, hw, hp⟩
  · rintro ⟨c', hc, w, hw, hp⟩
    exact Or.inr ⟨w, hw, hc ▸ hp⟩

theorem mem_prefixes_of_append (h : p ++ q ∈ prefixes words) : p ∈ prefixes words := by
  rw [mem_prefixes] at h ⊢
  rcases h with h | ⟨w, hw, hp⟩
  · exact Or.inl (List.append_eq_nil_iff.mp h).1
  · exact Or.inr ⟨w, hw, (List.prefix_append p q).trans hp⟩

theorem pairwise_length_prefixes (words : List Bytes) :
    (prefixes words).Pairwise fun p q => p.length ≤ q.length := by
  rw [prefixes]
  induction maxLength words + 1 with
  | zero => exact List.Pairwise.nil
  | succ d ih =>
    rw [levels_succ, List.pairwise_append]
    refine ⟨ih, List.Pairwise.imp_of_mem (R := fun _ _ => True) ?_ (List.pairwise_of_forall ?_), ?_⟩
    · intro p q hp hq _
      rw [(mem_level.mp hp).1, (mem_level.mp hq).1]
    · exact fun _ _ => trivial
    · intro p hp q hq
      have := (mem_levels.mp hp).1
      rw [(mem_level.mp hq).1]
      omega

def keys (words : List Bytes) : List Bytes := (prefixes words).filter (· ∈ words)

def keyId (words : List Bytes) (word : Bytes) : Int :=
  if word ∈ words then ((keys words).idxOf word : Int) else -1

theorem mem_keys : p ∈ keys words ↔ p ∈ words := by
  rw [keys, List.mem_filter, decide_eq_true_iff]
  exact ⟨fun h => h.2, fun h => ⟨mem_prefixes_of_mem h, h⟩⟩

theorem nodup_keys (words : List Bytes) : (keys words).Nodup := (nodup_prefixes words).filter _

end

end Mozkey.Storage
