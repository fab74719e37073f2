import Mozkey.Converter.Lattice

/-! `ScopedLatticeNodeInserter` of `converter/lattice.h`: nodes that are allocated while a loop runs over
the nodes of a position, and inserted after it.  `Placed` is what `Insert` makes of the lists of a lattice. -/

namespace Mozkey.Converter

namespace Lattice

/-- The nodes that begin at a position are allocated, and end where `insert` ends them. -/
structure Placed (l : Lattice) : Prop where
  lt_size : ∀ pos v, v ∈ l.beginNodes pos → v < l.size
  end_lt_size : ∀ pos v, v ∈ l.endNodes pos → v < l.size
  le_length : ∀ pos v, v ∈ l.beginNodes pos → pos ≤ l.key.length
  begins : ∀ pos v, v ∈ l.beginNodes pos → (l.node v).beginPos = toPos pos
  ends : ∀ pos v, v ∈ l.beginNodes pos → (l.node v).endPos = toPos (l.insertEnd pos (l.node v))
  mem_endNodes : ∀ pos v, v ∈ l.beginNodes pos → (l.node v).key ≠ [] →
    v ∈ l.endNodes (l.insertEnd pos (l.node v))

theorem placed_setKey (key : Bytes) (bosId : Nat) : (setKey key bosId).Placed := by
  have hbegin : ∀ p, (setKey key bosId).beginNodes p = if p = key.length then [1] else [] := by
    intro p
    simp [setKey, newNode, Function.update_apply]
  have hend : ∀ p, (setKey key bosId).endNodes p = if p = 0 then [0] else [] := by
    intro p
    simp [setKey, newNode, Function.update_apply]
  have heos : (setKey key bosId).node 1 = initEOSNode (toPos key.length) := by
    simp [setKey, newNode]
  have hmem : ∀ pos v, v ∈ (setKey key bosId).beginNodes pos → pos = key.length ∧ v = 1 := by
    intro pos v hv
    rw [hbegin] at hv
    by_cases hpos : pos = key.length
    · rw [if_pos hpos] at hv
      exact ⟨hpos, List.mem_singleton.mp hv⟩
    · rw [if_neg hpos] at hv
      cases hv
  refine ⟨?_, ?_, ?_, ?_, ?_, ?_⟩
  · intro pos v hv
    obtain ⟨-, rfl⟩ := hmem pos v hv
    exact Nat.one_lt_two
  · intro pos v hv
    rw [hend] at hv
    by_cases hpos : pos = 0
    · rw [if_pos hpos] at hv
      rw [List.mem_singleton.mp hv]
      exact Nat.two_pos
    · rw [if_neg hpos] at hv
      cases hv
  · intro pos v hv
    obtain ⟨rfl, -⟩ := hmem pos v hv
    exact le_refl _
  · intro pos v hv
    obtain ⟨rfl, rfl⟩ := hmem pos v hv
    rw [heos, initEOSNode]
  · intro pos v hv
    obtain ⟨rfl, rfl⟩ := hmem pos v hv
    have hkey : (setKey key bosId).key = key := rfl
    rw [heos, insertEnd, hkey, initEOSNode]
    simp
  · intro pos v hv hkey
    obtain ⟨-, rfl⟩ := hmem pos v hv
    rw [heos] at hkey
    exact absurd rfl hkey

section

variable {l : Lattice} {pos v : Nat}

@[simp] theorem insert_key : (l.insert pos v).key = l.key := rfl

@[simp] theorem insert_size : (l.insert pos v).size = l.size := rfl

theorem insert_node (w : Nat) : (l.insert pos v).node w =
    if w = v then
      { l.node v with
        beginPos := toPos pos
        endPos := toPos (l.insertEnd pos (l.node v))
        prev := none
        next := none
        cost := 0 }
    else l.node w := by
  by_cases h : w = v
  · simp [insert, insertEnd, h]
  · simp [insert, h]

theorem insert_beginNodes (p : Nat) : (l.insert pos v).beginNodes p =
    if p = pos then l.beginNodes p ++ [v] else l.beginNodes p := by
  by_cases h : p = pos
  · simp [insert, h]
  · simp [insert, h]

theorem insert_endNodes (p : Nat) : (l.insert pos v).endNodes p =
    if p = l.insertEnd pos (l.node v) then l.endNodes p ++ [v] else l.endNodes p := by
  have h : (l.insert pos v).endNodes = Function.update l.endNodes (l.insertEnd pos (l.node v))
      (l.endNodes (l.insertEnd pos (l.node v)) ++ [v]) := by
    simp [insert, insertEnd]
  rw [h, Function.update_apply]
  by_cases hp : p = l.insertEnd pos (l.node v)
  · rw [if_pos hp, if_pos hp, hp]
  · rw [if_neg hp, if_neg hp]

structure SameWord (a b : Node) : Prop where
  key : a.key = b.key
  value : a.value = b.value
  constrainedPrev : a.constrainedPrev = b.constrainedPrev

theorem SameWord.refl (a : Node) : SameWord a a := ⟨rfl, rfl, rfl⟩

theorem SameWord.trans {a b c : Node} (h : SameWord a b) (h' : SameWord b c) : SameWord a c :=
  ⟨h.key.trans h'.key, h.value.trans h'.value, h.constrainedPrev.trans h'.constrainedPrev⟩

theorem insert_sameWord (w : Nat) : SameWord ((l.insert pos v).node w) (l.node w) := by
  rw [insert_node]
  by_cases h : w = v
  · rw [if_pos h, h]
    exact ⟨rfl, rfl, rfl⟩
  · rw [if_neg h]
    exact SameWord.refl _

theorem insertEnd_insert (p w : Nat) :
    (l.insert pos v).insertEnd p ((l.insert pos v).node w) = l.insertEnd p (l.node w) := by
  rw [insertEnd, insertEnd, insert_key, (insert_sameWord w).key]

end

/-- The lattice after `insert` of the nodes of a list, each at its position. -/
def insertAll (inserted : List (Nat × Nat)) (l : Lattice) : Lattice :=
  inserted.foldl (fun l p => l.insert p.1 p.2) l

section

variable {inserted : List (Nat × Nat)} {l : Lattice}

theorem insertAll_cons (p : Nat × Nat) :
    insertAll (p :: inserted) l = insertAll inserted (l.insert p.1 p.2) := rfl

theorem insertAll_size : (insertAll inserted l).size = l.size := by
  induction inserted generalizing l with
  | nil => rfl
  | cons p inserted ih =>
    rw [insertAll_cons, ih, insert_size]

theorem insertAll_sameWord (w : Nat) : SameWord ((insertAll inserted l).node w) (l.node w) := by
  induction inserted generalizing l with
  | nil => exact SameWord.refl _
  | cons p inserted ih => exact ih.trans (insert_sameWord w)

theorem mem_insertAll_beginNodes (pos v : Nat) :
    v ∈ (insertAll inserted l).beginNodes pos ↔ v ∈ l.beginNodes pos ∨ (pos, v) ∈ inserted := by
  induction inserted generalizing l with
  | nil => simp [insertAll]
  | cons p inserted ih =>
    rw [insertAll_cons, ih, insert_beginNodes, List.mem_cons, Prod.ext_iff]
    by_cases h : pos = p.1
    · rw [if_pos h, List.mem_append, List.mem_singleton]
      tauto
    · rw [if_neg h]
      tauto

theorem mem_insertAll_endNodes (pos v : Nat) :
    v ∈ (insertAll inserted l).endNodes pos ↔
      v ∈ l.endNodes pos ∨ ∃ p, (p, v) ∈ inserted ∧ pos = l.insertEnd p (l.node v) := by
  induction inserted generalizing l with
  | nil => simp [insertAll]
  | cons p inserted ih =>
    rw [insertAll_cons, ih, insert_endNodes]
    simp only [insertEnd_insert, List.mem_cons, Prod.ext_iff, or_and_right, exists_or]
    have hhead : (∃ q, (q = p.1 ∧ v = p.2) ∧ pos = l.insertEnd q (l.node v)) ↔
        v = p.2 ∧ pos = l.insertEnd p.1 (l.node p.2) := by
      constructor
      · rintro ⟨q, ⟨rfl, rfl⟩, h⟩
        exact ⟨rfl, h⟩
      · rintro ⟨rfl, h⟩
        exact ⟨p.1, ⟨rfl, rfl⟩, h⟩
    rw [hhead]
    by_cases h : pos = l.insertEnd p.1 (l.node p.2)
    · rw [if_pos h, List.mem_append, List.mem_singleton]
      tauto
    · rw [if_neg h]
      tauto

theorem insertAll_node_of_not_mem {v : Nat} (h : ∀ p, (p, v) ∉ inserted) :
    (insertAll inserted l).node v = l.node v := by
  induction inserted generalizing l with
  | nil => rfl
  | cons p inserted ih =>
    rw [insertAll_cons, ih fun q hq => h q (List.mem_cons_of_mem _ hq), insert_node, if_neg]
    rintro rfl
    exact h p.1 List.mem_cons_self

theorem insertAll_positions {pos v : Nat} (h : (pos, v) ∈ inserted)
    (honly : ∀ p, (p, v) ∈ inserted → p = pos) :
    ((insertAll inserted l).node v).beginPos = toPos pos ∧
      ((insertAll inserted l).node v).endPos = toPos (l.insertEnd pos (l.node v)) := by
  induction inserted generalizing l with
  | nil => cases h
  | cons p inserted ih =>
    rw [insertAll_cons]
    by_cases hlater : ∃ q, (q, v) ∈ inserted
    · obtain ⟨q, hq⟩ := hlater
      obtain rfl := honly q (List.mem_cons_of_mem _ hq)
      have hih := ih (l := l.insert p.1 p.2) hq fun r hr => honly r (List.mem_cons_of_mem _ hr)
      rwa [insertEnd_insert] at hih
    · rw [insertAll_node_of_not_mem fun q hq => hlater ⟨q, hq⟩, insert_node]
      rcases List.mem_cons.mp h with rfl | h
      · rw [if_pos rfl]
        exact ⟨rfl, rfl⟩
      · exact absurd ⟨pos, h⟩ hlater

end

theorem Placed.insertNew {l : Lattice} {pos : Nat} {n : Node} (hl : l.Placed)
    (hpos : pos ≤ l.key.length) : (l.insertNew pos n).Placed := by
  have hmem : ∀ p v, v ∈ (l.insertNew pos n).beginNodes p →
      v ∈ l.beginNodes p ∨ (p = pos ∧ v = l.size) := by
    intro p v hv
    rw [insertNew_beginNodes] at hv
    by_cases hp : p = pos
    · rw [if_pos hp, List.mem_append, List.mem_singleton] at hv
      exact hv.imp_right fun h => ⟨hp, h⟩
    · rw [if_neg hp] at hv
      exact Or.inl hv
  have hnew : (l.insertNew pos n).node l.size = placed l.key (pos, n) := by
    rw [insertNew_node, if_pos rfl]
    rfl
  have hold : ∀ p v, v ∈ l.beginNodes p → (l.insertNew pos n).node v = l.node v := by
    intro p v hv
    have := hl.lt_size p v hv
    rw [insertNew_node, if_neg (by omega)]
  refine ⟨?_, ?_, ?_, ?_, ?_, ?_⟩
  · intro p v hv
    rw [insertNew_size]
    rcases hmem p v hv with h | ⟨-, rfl⟩
    · exact Nat.lt_succ_of_lt (hl.lt_size p v h)
    · exact Nat.lt_succ_self _
  · intro p v hv
    rw [insertNew_endNodes] at hv
    rw [insertNew_size]
    by_cases hp : p = l.insertEnd pos n
    · rw [if_pos hp, List.mem_append, List.mem_singleton] at hv
      rcases hv with h | rfl
      · exact Nat.lt_succ_of_lt (hl.end_lt_size p v h)
      · exact Nat.lt_succ_self _
    · rw [if_neg hp] at hv
      exact Nat.lt_succ_of_lt (hl.end_lt_size p v hv)
  · intro p v hv
    rw [insertNew_key]
    rcases hmem p v hv with h | ⟨rfl, -⟩
    · exact hl.le_length p v h
    · exact hpos
  · intro p v hv
    rcases hmem p v hv with h | ⟨rfl, rfl⟩
    · rw [hold p v h]
      exact hl.begins p v h
    · rw [hnew]
      rfl
  · intro p v hv
    rcases hmem p v hv with h | ⟨rfl, rfl⟩
    · rw [hold p v h]
      exact hl.ends p v h
    · rw [hnew]
      rfl
  · intro p v hv hkey
    rcases hmem p v hv with h | ⟨rfl, rfl⟩
    · rw [hold p v h] at hkey ⊢
      have hmemEnd := hl.mem_endNodes p v h hkey
      rw [show (l.insertNew pos n).insertEnd p (l.node v) = l.insertEnd p (l.node v) by rfl,
        insertNew_endNodes]
      by_cases hp : l.insertEnd p (l.node v) = l.insertEnd pos n
      · rw [if_pos hp]
        exact List.mem_append_left _ hmemEnd
      · rw [if_neg hp]
        exact hmemEnd
    · rw [hnew]
      rw [show (l.insertNew p n).insertEnd p (placed l.key (p, n)) = l.insertEnd p n by rfl,
        insertNew_endNodes, if_pos rfl]
      exact List.mem_append_right _ (List.mem_singleton.mpr rfl)

/-- A lattice filled up to the end of its key is placed. -/
theorem placed_fill {key : Bytes} {bosId : Nat} {nodes : List (Nat × Node)}
    (hpos : ∀ p ∈ nodes, p.1 ≤ key.length) : (fill key bosId nodes).Placed := by
  induction nodes using List.reverseRecOn with
  | nil => exact placed_setKey key bosId
  | append_singleton nodes p ih =>
    have hkey := fill_key key bosId nodes
    have hplaced := ih fun q hq => hpos q (List.mem_append_left _ hq)
    rw [fill] at hkey hplaced ⊢
    rw [List.foldl_append]
    refine hplaced.insertNew ?_
    rw [hkey]
    exact hpos p (by simp)

end Lattice

/-- The lattice, in which nodes may have been allocated, and `inserted_`. -/
structure ScopedLatticeNodeInserter where
  lattice : Lattice
  inserted : List (Nat × Nat) := []

namespace ScopedLatticeNodeInserter

def insert (inserter : ScopedLatticeNodeInserter) (pos v : Nat) : ScopedLatticeNodeInserter :=
  { inserter with inserted := inserter.inserted ++ [(pos, v)] }

def isInserted (inserter : ScopedLatticeNodeInserter) : Bool := !inserter.inserted.isEmpty

def destruct (inserter : ScopedLatticeNodeInserter) : Lattice :=
  Lattice.insertAll inserter.inserted inserter.lattice

/-- Allocates a node for `pos` and one that is constrained to it, for where its key ends. -/
def insertPair (pos : Nat) (inserter : ScopedLatticeNodeInserter) (pair : Node × Node) :
    ScopedLatticeNodeInserter :=
  let first := inserter.lattice.size
  let inserter := { inserter with lattice := inserter.lattice.newNode pair.1 }
  let inserter := inserter.insert pos first
  let second := inserter.lattice.size
  let inserter := { inserter with
    lattice := inserter.lattice.newNode { pair.2 with constrainedPrev := some first } }
  inserter.insert (pos + pair.1.key.length) second

/-- What a run of `insertPair` makes of an inserter without nodes. -/
structure Paired (l : Lattice) (pos : Nat) (pairs : List (Node × Node))
    (inserter : ScopedLatticeNodeInserter) : Prop where
  size : inserter.lattice.size = l.size + 2 * pairs.length
  key : inserter.lattice.key = l.key
  beginNodes : inserter.lattice.beginNodes = l.beginNodes
  endNodes : inserter.lattice.endNodes = l.endNodes
  old : ∀ v < l.size, inserter.lattice.node v = l.node v
  first : ∀ k pair, pairs[k]? = some pair → inserter.lattice.node (l.size + 2 * k) = pair.1
  second : ∀ k pair, pairs[k]? = some pair → inserter.lattice.node (l.size + 2 * k + 1) =
    { pair.2 with constrainedPrev := some (l.size + 2 * k) }
  inserted : ∀ p v, (p, v) ∈ inserter.inserted ↔ ∃ k pair, pairs[k]? = some pair ∧
    ((p = pos ∧ v = l.size + 2 * k) ∨
      (p = pos + pair.1.key.length ∧ v = l.size + 2 * k + 1))

theorem paired_foldl (l : Lattice) (pos : Nat) (pairs : List (Node × Node)) :
    Paired l pos pairs (pairs.foldl (insertPair pos) { lattice := l }) := by
  induction pairs using List.reverseRecOn with
  | nil => exact ⟨rfl, rfl, rfl, rfl, fun _ _ => rfl, by simp, by simp, by simp⟩
  | append_singleton pairs pair ih =>
    rw [List.foldl_append, List.foldl_cons, List.foldl_nil]
    generalize pairs.foldl (insertPair pos) { lattice := l } = inserter at ih
    have hsize := ih.size
    have hnode : ∀ v, (insertPair pos inserter pair).lattice.node v =
        if v = l.size + 2 * pairs.length + 1 then
          { pair.2 with constrainedPrev := some (l.size + 2 * pairs.length) }
        else if v = l.size + 2 * pairs.length then pair.1
        else inserter.lattice.node v := by
      intro v
      simp only [insertPair, insert, Lattice.newNode, hsize, Function.update_apply]
    have hlen : ∀ k p, pairs[k]? = some p → k < pairs.length := fun k p h =>
      (List.getElem?_eq_some_iff.mp h).1
    have hget : ∀ k p, (pairs ++ [pair])[k]? = some p ↔
        pairs[k]? = some p ∨ (k = pairs.length ∧ p = pair) := by
      intro k p
      rw [List.getElem?_append]
      by_cases hk : k < pairs.length
      · rw [if_pos hk]
        exact ⟨Or.inl, fun h => h.resolve_right fun h => by omega⟩
      · rw [if_neg hk]
        constructor
        · intro h
          have := (List.getElem?_eq_some_iff.mp h).1
          rw [List.length_singleton] at this
          have hzero : k - pairs.length = 0 := by omega
          rw [hzero] at h
          exact Or.inr ⟨by omega, (Option.some.inj h).symm⟩
        · rintro (h | ⟨rfl, rfl⟩)
          · exact absurd (hlen k p h) hk
          · rw [Nat.sub_self]
            rfl
    refine ⟨?_, ih.key, ih.beginNodes, ih.endNodes, ?_, ?_, ?_, ?_⟩
    · have : (insertPair pos inserter pair).lattice.size = inserter.lattice.size + 2 := rfl
      rw [this, hsize, List.length_append, List.length_singleton]
      omega
    · intro v hv
      rw [hnode, if_neg (by omega), if_neg (by omega), ih.old v hv]
    · intro k p hp
      rcases (hget k p).mp hp with h | ⟨rfl, rfl⟩
      · have := hlen k p h
        rw [hnode, if_neg (by omega), if_neg (by omega), ih.first k p h]
      · rw [hnode, if_neg (by omega), if_pos rfl]
    · intro k p hp
      rcases (hget k p).mp hp with h | ⟨rfl, rfl⟩
      · have := hlen k p h
        rw [hnode, if_neg (by omega), if_neg (by omega), ih.second k p h]
      · rw [hnode, if_pos rfl]
    · intro p v
      have hinserted : (insertPair pos inserter pair).inserted = inserter.inserted ++
          [(pos, l.size + 2 * pairs.length)] ++
          [(pos + pair.1.key.length, l.size + 2 * pairs.length + 1)] := by
        simp only [insertPair, insert, Lattice.newNode, hsize]
      simp only [hinserted, List.mem_append, List.mem_singleton, ih.inserted, hget, Prod.mk.injEq,
        or_and_right, exists_or, or_assoc]
      refine or_congr Iff.rfl ?_
      constructor
      · intro h
        exact ⟨pairs.length, pair, ⟨rfl, rfl⟩, h⟩
      · rintro ⟨_, _, ⟨rfl, rfl⟩, h⟩
        exact h

end ScopedLatticeNodeInserter

end Mozkey.Converter
