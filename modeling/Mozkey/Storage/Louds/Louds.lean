import Mozkey.Lib.LevelOrder
import Mozkey.Storage.Louds.SimpleSuccinctBitVectorIndex

/-! `Louds` of `storage/louds/louds.h`, and what its moves do on the bits of a tree in level order. -/

namespace Mozkey.Storage

open Lib

structure Louds.Node where
  edgeIndex : Nat := 0
  nodeId : Nat := 1
  deriving DecidableEq

structure Louds where
  index : SimpleSuccinctBitVectorIndex
  select0CacheSize : Nat := 0
  select1CacheSize : Nat := 0
  selectCache : List Nat := []
  deriving DecidableEq

namespace Louds

/-- The values of a select cache, the unused one for 0 included. -/
def precompute (select : Nat → Option Nat) (size : Nat) : Option (List Nat) :=
  (List.range size).mapM fun i => if i = 0 then some 0 else select i

def init (image : Bytes) (bitvecLb0CacheSize bitvecLb1CacheSize select0CacheSize
    select1CacheSize : Nat) : Option Louds := do
  let index ← SimpleSuccinctBitVectorIndex.init 32 image bitvecLb0CacheSize bitvecLb1CacheSize
  let select0CacheSize := min select0CacheSize index.getNum0Bits
  let select1CacheSize := min select1CacheSize index.getNum1Bits
  let cache0 ← precompute (fun i => (index.select0 i).map (· + 1)) select0CacheSize
  let cache1 ← precompute index.select1 select1CacheSize
  some { index, select0CacheSize, select1CacheSize, selectCache := cache0 ++ cache1 }

variable (l : Louds)

/-- `Select0` and one, from the cache if it has it. -/
def cachedSelect0 (nodeId : Nat) : Option Nat :=
  if nodeId < l.select0CacheSize then l.selectCache[nodeId]?
  else (l.index.select0 nodeId).map (· + 1)

def cachedSelect1 (nodeId : Nat) : Option Nat :=
  if nodeId < l.select1CacheSize then l.selectCache[l.select0CacheSize + nodeId]?
  else l.index.select1 nodeId

def initNodeFromNodeId (nodeId : Nat) : Option Node := do
  let edgeIndex ← l.cachedSelect1 nodeId
  some { edgeIndex, nodeId }

def isRoot (node : Node) : Bool := node.nodeId = 1

def moveToFirstChild (node : Node) : Option Node := do
  let edgeIndex ← l.cachedSelect0 node.nodeId
  some { edgeIndex, nodeId := edgeIndex + 1 - node.nodeId }

def moveToNextSibling (node : Node) : Node :=
  { edgeIndex := node.edgeIndex + 1, nodeId := node.nodeId + 1 }

def moveToParent (node : Node) : Option Node := do
  let nodeId := node.edgeIndex + 1 - node.nodeId
  let edgeIndex ← l.cachedSelect1 nodeId
  some { edgeIndex, nodeId }

def isValidNode (node : Node) : Option Bool := l.index.get node.edgeIndex

/-- The selects of an initialised structure, whatever its caches. -/
structure Opened (l : Louds) : Prop where
  select0 : ∀ {k i}, SelectsAt false (bitsOf l.index.data) k i → l.cachedSelect0 k = some (i + 1)
  select1 : ∀ {k i}, SelectsAt true (bitsOf l.index.data) k i → l.cachedSelect1 k = some i

theorem precompute_eq {select : Nat → Option Nat} {size : Nat}
    (h : ∀ k, 0 < k → k < size → (select k).isSome) :
    ∃ cache, precompute select size = some cache ∧ cache.length = size ∧
      ∀ k, 0 < k → k < size → cache[k]? = select k := by
  have hmap : ∀ xs : List Nat, (∀ k ∈ xs, k < size) →
      (xs.mapM fun k => if k = 0 then some 0 else select k) =
        some (xs.map fun k => (if k = 0 then some 0 else select k).getD 0) := by
    intro xs hxs
    induction xs with
    | nil => rfl
    | cons k xs ih =>
      obtain ⟨v, hv⟩ : ∃ v, (if k = 0 then some 0 else select k) = some v := by
        split
        · exact ⟨0, rfl⟩
        · next hk =>
          exact Option.isSome_iff_exists.mp (h k (by omega) (hxs k List.mem_cons_self))
      rw [List.mapM_cons, ih fun j hj => hxs j (List.mem_cons_of_mem k hj), List.map_cons, hv]
      rfl
  refine ⟨_, hmap (List.range size) (fun k hk => List.mem_range.mp hk), by simp,
    fun k hk hlt => ?_⟩
  obtain ⟨v, hv⟩ := Option.isSome_iff_exists.mp (h k hk hlt)
  rw [List.getElem?_map, List.getElem?_range hlt, Option.map_some, if_neg (by omega), hv,
    Option.getD_some]

theorem length_lt_of_init {image : Bytes} {bitvecLb0CacheSize bitvecLb1CacheSize select0CacheSize
    select1CacheSize : Nat} {l : Louds}
    (h : init image bitvecLb0CacheSize bitvecLb1CacheSize select0CacheSize select1CacheSize = some l) :
    8 * image.length < 2 ^ 31 := by
  unfold init at h
  obtain ⟨index, hindex, -⟩ := Option.bind_eq_some_iff.mp h
  exact SimpleSuccinctBitVectorIndex.length_lt_of_init hindex

theorem init_eq {image : Bytes} (himage : 4 ∣ image.length) (hlength : 8 * image.length < 2 ^ 31)
    (bitvecLb0CacheSize bitvecLb1CacheSize select0CacheSize select1CacheSize : Nat) :
    ∃ l, init image bitvecLb0CacheSize bitvecLb1CacheSize select0CacheSize select1CacheSize = some l ∧
      l.index.data = image ∧ l.Opened := by
  obtain ⟨index, hinit, hindexed, hdata, -⟩ := @SimpleSuccinctBitVectorIndex.init_eq _ 32
    (by decide) (by decide) himage hlength bitvecLb0CacheSize bitvecLb1CacheSize
  have hselect0 := fun {k i} => SimpleSuccinctBitVectorIndex.select0_eq hindexed (n := k) (i := i)
  have hselect1 := fun {k i} => SimpleSuccinctBitVectorIndex.select1_eq hindexed (n := k) (i := i)
  have hnum0 := SimpleSuccinctBitVectorIndex.getNum0Bits_eq hindexed
  have hnum1 := SimpleSuccinctBitVectorIndex.getNum1Bits_eq hindexed
  obtain ⟨cache0, hcache0, hlength0, hget0⟩ := @precompute_eq
    (fun i => (index.select0 i).map (· + 1)) (min select0CacheSize index.getNum0Bits) (fun k hk hlt => by
      obtain ⟨i, hi⟩ := @exists_selectsAt false (bitsOf index.data) _ hk (by omega)
      simp [hselect0 hi])
  obtain ⟨cache1, hcache1, hlength1, hget1⟩ := @precompute_eq index.select1
    (min select1CacheSize index.getNum1Bits) (fun k hk hlt => by
      obtain ⟨i, hi⟩ := @exists_selectsAt true (bitsOf index.data) _ hk (by omega)
      simp [hselect1 hi])
  refine ⟨_, by simp only [init, hinit, hcache0, hcache1, Option.bind_eq_bind, Option.bind_some]; rfl,
    hdata, fun {k i} h => ?_, fun {k i} h => ?_⟩
  · rw [cachedSelect0]
    split
    · next hlt =>
      dsimp only at hlt
      rw [List.getElem?_append_left (by omega), hget0 k h.pos hlt, hselect0 h]
      rfl
    · dsimp only
      rw [hselect0 h]
      rfl
  · rw [cachedSelect1]
    split
    · next hlt =>
      show (cache0 ++ cache1)[min select0CacheSize index.getNum0Bits + k]? = some i
      rw [List.getElem?_append_right (by omega), hlength0, Nat.add_sub_cancel_left,
        hget1 k h.pos hlt, hselect1 h]
    · exact hselect1 h

structure IsNode (l : Louds) (c : Nat) (node : Node) : Prop where
  nodeId : node.nodeId = c + 1
  edge : SelectsAt true (bitsOf l.index.data) (c + 1) node.edgeIndex

theorem IsNode.unique {l : Louds} {c : Nat} {node node' : Node} (h : l.IsNode c node)
    (h' : l.IsNode c node') : node = node' := by
  cases node
  cases node'
  simp only [Node.mk.injEq]
  exact ⟨h.edge.unique h'.edge, h.nodeId.trans h'.nodeId.symm⟩

theorem IsNode.isValidNode {l : Louds} {c : Nat} {node : Node} (h : l.IsNode c node) :
    l.isValidNode node = some true := by
  rw [Louds.isValidNode, SimpleSuccinctBitVectorIndex.get_eq]
  exact h.edge.getElem

theorem IsNode.isRoot_iff {l : Louds} {c : Nat} {node : Node} (h : l.IsNode c node) :
    isRoot node = true ↔ c = 0 := by
  rw [isRoot, decide_eq_true_iff, h.nodeId]
  omega

section

universe u

variable {α : Type u} {children : α → List α} {root : α} {nodes : List α} {l : Louds}

/-- The place of the `j`-th child of the `i`-th vertex. -/
def childNode (children : α → List α) (nodes : List α) (i j : Nat) : Node :=
  { edgeIndex := firstChild children nodes i + i + 1 + j
    nodeId := firstChild children nodes i + j + 1 }

theorem moveToNextSibling_childNode (i j : Nat) :
    moveToNextSibling (childNode children nodes i j) = childNode children nodes i (j + 1) := rfl

/-- The structure holds the sequence of a tree, and more zeros. -/
structure Represents (l : Louds) (children : α → List α) (root : α) (nodes : List α) : Prop where
  opened : l.Opened
  order : LevelOrder children root nodes
  bits : ∃ padding, bitsOf l.index.data = louds (degrees children nodes) ++ padding

namespace Represents

variable (h : l.Represents children root nodes) {i j c : Nat} {v w : α} {node : Node}
include h

theorem selectsAt {b : Bool} {k : Nat} (hk : SelectsAt b (louds (degrees children nodes)) k i) :
    SelectsAt b (bitsOf l.index.data) k i := by
  obtain ⟨padding, hbits⟩ := h.bits
  rw [hbits]
  exact hk.append_right padding

theorem isNode_root : l.IsNode 0 {} := ⟨rfl, h.selectsAt LevelOrder.selectsAt_root⟩

theorem moveToFirstChild_eq (hv : nodes[i]? = some v) (hnode : l.IsNode i node) :
    l.moveToFirstChild node = some (childNode children nodes i 0) := by
  have hselect := h.opened.select0 (h.selectsAt (LevelOrder.selectsAt_false hv))
  rw [moveToFirstChild, hnode.nodeId, hselect, childNode]
  show some (Node.mk _ _) = _
  rw [Option.some_inj, Node.mk.injEq]
  omega

theorem isNode_childNode (hv : nodes[i]? = some v) (hj : j < (children v).length) :
    l.IsNode (firstChild children nodes i + j) (childNode children nodes i j) :=
  ⟨rfl, h.selectsAt (LevelOrder.selectsAt_child hv hj)⟩

theorem isValidNode_end (hv : nodes[i]? = some v) :
    l.isValidNode (childNode children nodes i (children v).length) = some false := by
  obtain ⟨padding, hbits⟩ := h.bits
  have hend := @LevelOrder.getElem_end _ children _ _ _ hv
  rw [isValidNode, SimpleSuccinctBitVectorIndex.get_eq, hbits, childNode,
    List.getElem?_append_left (List.getElem?_eq_some_iff.mp hend).1]
  exact hend

theorem exists_isNode (hc : nodes[c]? = some w) : ∃ node, l.IsNode c node := by
  rcases Nat.eq_zero_or_pos c with rfl | hpos
  · exact ⟨_, h.isNode_root⟩
  · obtain ⟨i, v, j, hv, hj, rfl⟩ := h.order.exists_parent hc hpos
    exact ⟨_, h.isNode_childNode hv (List.getElem?_eq_some_iff.mp hj).1⟩

theorem initNodeFromNodeId_eq (hnode : l.IsNode c node) :
    l.initNodeFromNodeId (c + 1) = some node := by
  rw [initNodeFromNodeId, h.opened.select1 hnode.edge, ← hnode.nodeId]
  rfl

theorem moveToParent_eq (hv : nodes[i]? = some v) (hw : (children v)[j]? = some w)
    (hnode : l.IsNode (firstChild children nodes i + j) node) :
    ∃ parent, l.moveToParent node = some parent ∧ l.IsNode i parent := by
  obtain ⟨parent, hparent⟩ := h.exists_isNode hv
  obtain rfl := hnode.unique (h.isNode_childNode hv (List.getElem?_eq_some_iff.mp hw).1)
  refine ⟨parent, ?_, hparent⟩
  have hid : (childNode children nodes i j).edgeIndex + 1 - (childNode children nodes i j).nodeId =
      i + 1 := by
    rw [childNode]
    dsimp only
    omega
  rw [moveToParent, hid, h.opened.select1 hparent.edge, ← hparent.nodeId]
  rfl

end Represents

end

end Louds

end Mozkey.Storage
