import Mathlib

/-! The lattice of `converter/lattice.cc`: nodes between the byte positions of a key, listed by the
position where they begin and by the position where they end.  Nodes live in an arena and are named
by their index in it, so that a pointer of the source is an index and `nullptr` is `none`. -/

namespace Mozkey.Converter

abbrev Bytes := List UInt8

/-- The connection matrix: the cost of a right id before a left id.  Both sizes of the matrix are
one 16-bit field of its image, so no id of it is `0xffff`. -/
structure Connector where
  size : Nat
  size_le : size ≤ 0xffff
  getTransitionCost : Nat → Nat → Int

inductive NodeType where
  | norNode
  | bosNode
  | eosNode
  | conNode
  | hisNode
  deriving DecidableEq

structure Node where
  prev : Option Nat := none
  next : Option Nat := none
  constrainedPrev : Option Nat := none
  rid : Nat := 0
  lid : Nat := 0
  beginPos : Nat := 0
  endPos : Nat := 0
  wcost : Int := 0
  cost : Int := 0
  nodeType : NodeType := .norNode
  attributes : Nat := 0
  key : Bytes := []
  value : Bytes := []
  deriving DecidableEq

def Node.unlabelled (n : Node) : Node :=
  { n with prev := none, next := none, cost := 0 }

/-- `begin_nodes_`, `end_nodes_` and the arena, of which `size` nodes are allocated. -/
structure Lattice where
  key : Bytes := []
  beginNodes : Nat → List Nat := fun _ => []
  endNodes : Nat → List Nat := fun _ => []
  node : Nat → Node := fun _ => {}
  size : Nat := 0

namespace Lattice

/-- `NewNode`, then the assignments of its caller to the fields of the node. -/
def newNode (l : Lattice) (n : Node) : Lattice :=
  { l with node := Function.update l.node l.size n, size := l.size + 1 }

/-- The conversion of `size_t` to the 16 bits of a position field. -/
def toPos (pos : Nat) : Nat := pos % 2 ^ 16

def initBOSNode (position bosId : Nat) : Node :=
  { rid := bosId
    lid := 0
    value := [0x42, 0x4f, 0x53] -- "BOS"
    nodeType := .bosNode
    beginPos := position
    endPos := position }

def initEOSNode (position : Nat) : Node :=
  { value := [0x45, 0x4f, 0x53] -- "EOS"
    nodeType := .eosNode
    beginPos := position
    endPos := position }

def setKey (key : Bytes) (bosId : Nat) : Lattice :=
  let l : Lattice := { key := key }
  let bos := l.size
  let l := l.newNode (initBOSNode 0 bosId)
  let eos := l.size
  let l := l.newNode (initEOSNode (toPos key.length))
  { l with
    endNodes := Function.update l.endNodes 0 [bos]
    beginNodes := Function.update l.beginNodes key.length [eos] }

def insert (l : Lattice) (pos : Nat) (v : Nat) : Lattice :=
  let n := l.node v
  let endPos := min (n.key.length + pos) l.key.length
  { l with
    node := Function.update l.node v
      { n with
        beginPos := toPos pos
        endPos := toPos endPos
        prev := none
        next := none
        cost := 0 }
    beginNodes := Function.update l.beginNodes pos (l.beginNodes pos ++ [v])
    endNodes := Function.update l.endNodes endPos (l.endNodes endPos ++ [v]) }

def insertNew (l : Lattice) (pos : Nat) (n : Node) : Lattice :=
  (l.newNode n).insert pos l.size

/-- A lattice with a key to which nodes were inserted one after another. -/
def fill (key : Bytes) (bosId : Nat) (nodes : List (Nat × Node)) : Lattice :=
  nodes.foldl (fun l p => l.insertNew p.1 p.2) (setKey key bosId)

def bosNode (l : Lattice) : Nat := (l.endNodes 0).headD 0

def eosNode (l : Lattice) : Nat := (l.beginNodes l.key.length).headD 0

/-- What holds of a lattice on which no search has run yet. -/
structure Fresh (l : Lattice) : Prop where
  mem_beginNodes : ∀ pos v, v ∈ l.beginNodes pos ↔
    v < l.size ∧ v ≠ l.bosNode ∧ (l.node v).beginPos = pos
  mem_endNodes : ∀ pos v, v ∈ l.endNodes pos ↔
    v < l.size ∧ v ≠ l.eosNode ∧ (l.node v).endPos = pos
  nodup_beginNodes : ∀ pos, (l.beginNodes pos).Nodup
  nodup_endNodes : ∀ pos, (l.endNodes pos).Nodup
  bos_lt : l.bosNode < l.size
  eos_lt : l.eosNode < l.size
  bos_ne_eos : l.bosNode ≠ l.eosNode
  bos_pos : (l.node l.bosNode).beginPos = 0 ∧ (l.node l.bosNode).endPos = 0
  eos_pos : (l.node l.eosNode).beginPos = l.key.length ∧
    (l.node l.eosNode).endPos = l.key.length
  begin_lt_end : ∀ v, v < l.size → v ≠ l.bosNode → v ≠ l.eosNode →
    (l.node v).beginPos < (l.node v).endPos ∧ (l.node v).endPos ≤ l.key.length
  bos_unconstrained : (l.node l.bosNode).constrainedPrev = none
  eos_unconstrained : (l.node l.eosNode).constrainedPrev = none
  eos_wcost : (l.node l.eosNode).wcost = 0
  unlabelled : ∀ v, (l.node v).prev = none ∧ (l.node v).next = none ∧ (l.node v).cost = 0

section

variable {l : Lattice} {pos : Nat} {n : Node}

theorem toPos_of_lt {pos : Nat} (h : pos < 2 ^ 16) : toPos pos = pos :=
  Nat.mod_eq_of_lt h

def insertEnd (l : Lattice) (pos : Nat) (n : Node) : Nat := min (n.key.length + pos) l.key.length

theorem insertNew_node (v : Nat) : (l.insertNew pos n).node v =
    if v = l.size then
      { n with
        beginPos := toPos pos
        endPos := toPos (l.insertEnd pos n)
        prev := none
        next := none
        cost := 0 }
    else l.node v := by
  by_cases h : v = l.size
  · simp [insertNew, newNode, insert, insertEnd, h]
  · simp [insertNew, newNode, insert, h]

theorem insertNew_beginNodes (p : Nat) : (l.insertNew pos n).beginNodes p =
    if p = pos then l.beginNodes p ++ [l.size] else l.beginNodes p := by
  by_cases h : p = pos
  · simp [insertNew, newNode, insert, h]
  · simp [insertNew, newNode, insert, h]

theorem insertNew_endNodes (p : Nat) : (l.insertNew pos n).endNodes p =
    if p = l.insertEnd pos n then l.endNodes p ++ [l.size] else l.endNodes p := by
  have h : (l.insertNew pos n).endNodes = Function.update l.endNodes (l.insertEnd pos n)
      (l.endNodes (l.insertEnd pos n) ++ [l.size]) := by
    simp [insertNew, newNode, insert, insertEnd]
  rw [h, Function.update_apply]
  split
  · next hp => rw [hp]
  · rfl

@[simp] theorem insertNew_key : (l.insertNew pos n).key = l.key := rfl

@[simp] theorem insertNew_size : (l.insertNew pos n).size = l.size + 1 := rfl

theorem insertNew_eosNode (hpos : pos < l.key.length) :
    (l.insertNew pos n).eosNode = l.eosNode := by
  rw [eosNode, eosNode, insertNew_beginNodes, insertNew_key, if_neg (by omega)]

theorem insertNew_bosNode (hpos : pos < l.key.length) (hkey : n.key ≠ []) :
    (l.insertNew pos n).bosNode = l.bosNode := by
  have := List.length_pos_iff.mpr hkey
  rw [bosNode, bosNode, insertNew_endNodes, if_neg (by rw [insertEnd]; omega)]

theorem mem_snoc_at {xs : List Nat} {size b p q : Nat} {f : Nat → Nat} (hb : b < size)
    (h : ∀ v, v ∈ xs ↔ v < size ∧ v ≠ b ∧ f v = p) (v : Nat) :
    v ∈ (if p = q then xs ++ [size] else xs) ↔
      v < size + 1 ∧ v ≠ b ∧ (if v = size then q else f v) = p := by
  have hv := h v
  by_cases hp : p = q
  · rw [if_pos hp, List.mem_append, hv, List.mem_singleton]
    split <;> omega
  · rw [if_neg hp, hv]
    split <;> omega

theorem Fresh.insertNew (hl : l.Fresh) (hlen : l.key.length < 2 ^ 16) (hpos : pos < l.key.length)
    (hkey : n.key ≠ []) : (l.insertNew pos n).Fresh := by
  have hk := List.length_pos_iff.mpr hkey
  have hbos := insertNew_bosNode (l := l) hpos hkey
  have heos := insertNew_eosNode (n := n) hpos
  have hend : l.insertEnd pos n ≤ l.key.length ∧ pos < l.insertEnd pos n := by
    rw [insertEnd]
    omega
  have hb : toPos pos = pos := toPos_of_lt (by omega)
  have he : toPos (l.insertEnd pos n) = l.insertEnd pos n := toPos_of_lt (by omega)
  have hbl := hl.bos_lt
  have hel := hl.eos_lt
  constructor
  · intro p v
    rw [insertNew_beginNodes, hbos, insertNew_node, insertNew_size, hb, apply_ite Node.beginPos]
    exact mem_snoc_at hbl (hl.mem_beginNodes p) v
  · intro p v
    rw [insertNew_endNodes, heos, insertNew_node, insertNew_size, he, apply_ite Node.endPos]
    exact mem_snoc_at hel (hl.mem_endNodes p) v
  · intro p
    rw [insertNew_beginNodes]
    split
    · refine List.nodup_append.mpr ⟨hl.nodup_beginNodes p, by simp, ?_⟩
      intro a ha b hb
      have := ((hl.mem_beginNodes p a).mp ha).1
      simp at hb
      omega
    · exact hl.nodup_beginNodes p
  · intro p
    rw [insertNew_endNodes]
    split
    · refine List.nodup_append.mpr ⟨hl.nodup_endNodes p, by simp, ?_⟩
      intro a ha b hb
      have := ((hl.mem_endNodes p a).mp ha).1
      simp at hb
      omega
    · exact hl.nodup_endNodes p
  · rw [hbos, insertNew_size]
    omega
  · rw [heos, insertNew_size]
    omega
  · rw [hbos, heos]
    exact hl.bos_ne_eos
  · rw [hbos, insertNew_node, if_neg (by omega)]
    exact hl.bos_pos
  · rw [heos, insertNew_node, if_neg (by omega)]
    exact hl.eos_pos
  · intro v hv hvb hve
    rw [hbos] at hvb
    rw [heos] at hve
    rw [insertNew_node]
    split
    · simp only [hb, he, insertNew_key]
      omega
    · exact hl.begin_lt_end v (by rw [insertNew_size] at hv; omega) hvb hve
  · rw [hbos, insertNew_node, if_neg (by omega)]
    exact hl.bos_unconstrained
  · rw [heos, insertNew_node, if_neg (by omega)]
    exact hl.eos_unconstrained
  · rw [heos, insertNew_node, if_neg (by omega)]
    exact hl.eos_wcost
  · intro v
    rw [insertNew_node]
    split
    · exact ⟨rfl, rfl, rfl⟩
    · exact hl.unlabelled v

end

theorem fresh_setKey {key : Bytes} {bosId : Nat} (hne : key ≠ []) (hlen : key.length < 2 ^ 16) :
    (setKey key bosId).Fresh := by
  have hk := List.length_pos_iff.mpr hne
  have hb : (setKey key bosId).bosNode = 0 := by simp [setKey, newNode, bosNode]
  have he : (setKey key bosId).eosNode = 1 := by simp [setKey, newNode, eosNode]
  have hpos : toPos key.length = key.length := toPos_of_lt hlen
  have hnode : ∀ v, (setKey key bosId).node v =
      if v = 0 then initBOSNode 0 bosId else if v = 1 then initEOSNode key.length else {} := by
    intro v
    simp [setKey, newNode, hpos, Function.update_apply]
    grind
  have hbegin : ∀ p, (setKey key bosId).beginNodes p = if p = key.length then [1] else [] := by
    intro p
    simp [setKey, newNode, Function.update_apply]
  have hend : ∀ p, (setKey key bosId).endNodes p = if p = 0 then [0] else [] := by
    intro p
    simp [setKey, newNode, Function.update_apply]
  have hsize : (setKey key bosId).size = 2 := rfl
  constructor
  · intro p v
    rw [hbegin, hb, hnode, hsize]
    grind [initBOSNode, initEOSNode]
  · intro p v
    rw [hend, he, hnode, hsize]
    grind [initBOSNode, initEOSNode]
  · intro p
    rw [hbegin]
    split <;> simp
  · intro p
    rw [hend]
    split <;> simp
  · rw [hb, hsize]
    omega
  · rw [he, hsize]
    omega
  · rw [hb, he]
    omega
  · simp [hb, hnode, initBOSNode]
  · rw [he, hnode]
    simp [initEOSNode, setKey, newNode]
  · intro v hv hvb hve
    rw [hsize] at hv
    omega
  · simp [hb, hnode, initBOSNode]
  · simp [he, hnode, initEOSNode]
  · simp [he, hnode, initEOSNode]
  · intro v
    rw [hnode]
    grind [initBOSNode, initEOSNode]

@[simp] theorem fill_key (key : Bytes) (bosId : Nat) (nodes : List (Nat × Node)) :
    (fill key bosId nodes).key = key := by
  rw [fill]
  induction nodes using List.reverseRecOn with
  | nil => rfl
  | append_singleton nodes p ih => rwa [List.foldl_append]

theorem fresh_fill {key : Bytes} {bosId : Nat} {nodes : List (Nat × Node)} (hne : key ≠ [])
    (hlen : key.length < 2 ^ 16) (hpos : ∀ p ∈ nodes, p.1 < key.length)
    (hkey : ∀ p ∈ nodes, p.2.key ≠ []) :
    (fill key bosId nodes).Fresh := by
  induction nodes using List.reverseRecOn with
  | nil => exact fresh_setKey hne hlen
  | append_singleton nodes p ih =>
    have hkey' := fill_key key bosId nodes
    have hfresh := ih (fun q hq => hpos q (by simp [hq])) (fun q hq => hkey q (by simp [hq]))
    rw [fill] at hkey' hfresh ⊢
    rw [List.foldl_append]
    refine hfresh.insertNew ?_ ?_ (hkey p (by simp))
    · rwa [hkey']
    · rw [hkey']
      exact hpos p (by simp)

def placed (key : Bytes) (p : Nat × Node) : Node :=
  { p.2 with
    beginPos := toPos p.1
    endPos := toPos (min (p.2.key.length + p.1) key.length)
    prev := none
    next := none
    cost := 0 }

theorem fill_forall {key : Bytes} {bosId : Nat} {nodes : List (Nat × Node)} {P : Node → Prop}
    (hbos : P (initBOSNode 0 bosId)) (heos : P (initEOSNode (toPos key.length)))
    (hnodes : ∀ p ∈ nodes, P (placed key p)) :
    (fill key bosId nodes).size = nodes.length + 2 ∧
      ∀ v, v < (fill key bosId nodes).size → P ((fill key bosId nodes).node v) := by
  rw [fill]
  induction nodes using List.reverseRecOn with
  | nil =>
    refine ⟨rfl, fun v hv => ?_⟩
    have hv : v = 0 ∨ v = 1 := by
      have : (setKey key bosId).size = 2 := rfl
      simp only [List.foldl_nil] at hv
      omega
    rcases hv with rfl | rfl
    · simpa [setKey, newNode] using hbos
    · simpa [setKey, newNode] using heos
  | append_singleton nodes p ih =>
    obtain ⟨hsize, hnode⟩ := ih fun q hq => hnodes q (by simp [hq])
    have hkey := fill_key key bosId nodes
    rw [fill] at hkey
    rw [List.foldl_append]
    simp only [List.foldl_cons, List.foldl_nil, insertNew_size, hsize, List.length_append,
      List.length_singleton]
    refine ⟨trivial, fun v hv => ?_⟩
    rw [insertNew_node, insertEnd, hkey]
    split
    · exact hnodes p (by simp)
    · next hne =>
      rw [hsize] at hne
      exact hnode v (by rw [hsize]; omega)

end Lattice

end Mozkey.Converter
