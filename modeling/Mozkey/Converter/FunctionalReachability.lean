import Mozkey.Base.ScriptType
import Mozkey.Converter.Lattice

/-! `BuildFunctionalReachability` of `converter/immutable_converter.cc`: which positions of a lattice are
joined by a chain of functional words written in hiragana. -/

namespace Mozkey.Converter

open Base

def isKanaFunctionalNode (isFunctional : Nat → Bool) (node : Node) : Bool :=
  if node.nodeType ≠ .norNode then false
  else if node.key = [] then false
  else if node.key ≠ node.value then false
  else if Util.getScriptTypeOfText node.key ≠ .hiragana then false
  else isFunctional node.lid || isFunctional node.rid

/-- `std::vector<std::vector<bool>>`, a row for each position where a chain starts. -/
abbrev FunctionalReachability := List (List Bool)

section sweep

variable (isFunctional : Nat → Bool) (lattice : Lattice)

def extendRow (pos : Nat) (row : List Bool) (v : Nat) : List Bool :=
  if (lattice.node v).endPos > lattice.key.length then row
  else if (lattice.node v).endPos = pos then row
  else if !isKanaFunctionalNode isFunctional (lattice.node v) then row
  else row.set (lattice.node v).endPos true

def sweepPos (row : List Bool) (pos : Nat) : List Bool :=
  if row[pos]? ≠ some true then row
  else (lattice.beginNodes pos).foldl (extendRow isFunctional lattice pos) row

def sweepRow (start : Nat) (row : List Bool) : List Bool :=
  (List.range' start (lattice.key.length - start)).foldl (sweepPos isFunctional lattice) row

def buildFunctionalReachability (beginPos : Nat) : FunctionalReachability :=
  let keySize := lattice.key.length
  let reachable := List.replicate (keySize + 1) (List.replicate (keySize + 1) false)
  let reachable := (List.range' beginPos (keySize + 1 - beginPos)).foldl
    (fun reachable i => reachable.modify i (·.set i true)) reachable
  (List.range' beginPos (keySize - beginPos)).foldl
    (fun reachable start => reachable.modify start (sweepRow isFunctional lattice start)) reachable

end sweep

def hasFunctionalPathInRange (reachable : FunctionalReachability) (beginPos endPos : Nat) : Bool :=
  match reachable[beginPos]? with
  | none => false
  | some row => row[endPos]? == some true

/-- A functional node of the lattice that begins at one position and ends at another. -/
def FunctionalHop (isFunctional : Nat → Bool) (lattice : Lattice) (p q : Nat) : Prop :=
  ∃ pos, ∃ v ∈ lattice.beginNodes pos, isKanaFunctionalNode isFunctional (lattice.node v) ∧
    (lattice.node v).beginPos = p ∧ (lattice.node v).endPos = q

/-- Zero or more functional nodes, each of which begins where the one before ends. -/
def FunctionalChain (isFunctional : Nat → Bool) (lattice : Lattice) : Nat → Nat → Prop :=
  Relation.ReflTransGen (FunctionalHop isFunctional lattice)

namespace Lattice

/-- The lattices that `SetKey` and `Insert` build, where what is not a position of a node may be
written at any time.  `MakeLattice` sets only keys of less than `kMaxCharLength` = 1024 bytes, so that
all positions fit their 16-bit fields. -/
inductive Built : Lattice → Prop where
  | setKey {key : Bytes} (bosId : Nat) (hlen : key.length < 2 ^ 16) : Built (setKey key bosId)
  | insertNew {l : Lattice} (hl : Built l) {pos : Nat} (hpos : pos ≤ l.key.length) (n : Node) :
      Built (l.insertNew pos n)
  | write {l : Lattice} (hl : Built l) (f : Nat → Node)
      (hf : ∀ v, (f v).beginPos = (l.node v).beginPos ∧ (f v).endPos = (l.node v).endPos) :
      Built { l with node := f }

/-- The nodes are listed by the position where they begin, and end within the key and not before. -/
structure WellPlaced (l : Lattice) : Prop where
  key_lt : l.key.length < 2 ^ 16
  allocated : ∀ pos, ∀ v ∈ l.beginNodes pos, v < l.size
  beginPos_eq : ∀ pos, ∀ v ∈ l.beginNodes pos, (l.node v).beginPos = pos
  le_endPos : ∀ pos, ∀ v ∈ l.beginNodes pos, pos ≤ (l.node v).endPos
  endPos_le : ∀ pos, ∀ v ∈ l.beginNodes pos, (l.node v).endPos ≤ l.key.length

theorem wellPlaced_setKey {key : Bytes} (bosId : Nat) (hlen : key.length < 2 ^ 16) :
    (setKey key bosId).WellPlaced := by
  have hpos : toPos key.length = key.length := toPos_of_lt hlen
  have hnode : (setKey key bosId).node 1 = initEOSNode key.length := by
    simp [setKey, newNode, hpos]
  have hmem : ∀ pos, ∀ v ∈ (setKey key bosId).beginNodes pos, v = 1 ∧ pos = key.length := by
    intro pos v hv
    by_cases h : pos = key.length
    · subst h
      simpa [setKey, newNode] using hv
    · simp [setKey, newNode, h] at hv
  refine ⟨hlen, ?_, ?_, ?_, ?_⟩ <;> intro pos v hv <;> obtain ⟨rfl, rfl⟩ := hmem pos v hv
  · show 1 < 2
    omega
  · rw [hnode, initEOSNode]
  · rw [hnode, initEOSNode]
  · rw [hnode, initEOSNode]
    exact le_rfl

theorem WellPlaced.insertNew {l : Lattice} (hl : l.WellPlaced) {pos : Nat} (hpos : pos ≤ l.key.length)
    (n : Node) : (l.insertNew pos n).WellPlaced := by
  have hkey := hl.key_lt
  have hend : pos ≤ l.insertEnd pos n ∧ l.insertEnd pos n ≤ l.key.length := by
    rw [insertEnd]
    omega
  have hb : toPos pos = pos := toPos_of_lt (by omega)
  have he : toPos (l.insertEnd pos n) = l.insertEnd pos n := toPos_of_lt (by omega)
  -- a listed node is the new one, or was listed before
  have hmem : ∀ p, ∀ v ∈ (l.insertNew pos n).beginNodes p,
      (v = l.size ∧ p = pos) ∨ (v ∈ l.beginNodes p ∧ v < l.size) := by
    intro p v hv
    rw [insertNew_beginNodes] at hv
    split at hv
    · rcases List.mem_append.mp hv with hv | hv
      · exact .inr ⟨hv, hl.allocated p v hv⟩
      · exact .inl ⟨List.mem_singleton.mp hv, by assumption⟩
    · exact .inr ⟨hv, hl.allocated p v hv⟩
  refine ⟨hkey, ?_, ?_, ?_, ?_⟩ <;> intro p v hv <;> rcases hmem p v hv with ⟨rfl, rfl⟩ | ⟨hv, hlt⟩
  · rw [insertNew_size]
    omega
  · rw [insertNew_size]
    omega
  · rw [insertNew_node, if_pos rfl]
    exact hb
  · rw [insertNew_node, if_neg (by omega)]
    exact hl.beginPos_eq p v hv
  · rw [insertNew_node, if_pos rfl]
    exact he.symm ▸ hend.1
  · rw [insertNew_node, if_neg (by omega)]
    exact hl.le_endPos p v hv
  · rw [insertNew_node, if_pos rfl]
    exact he.symm ▸ hend.2
  · rw [insertNew_node, if_neg (by omega)]
    exact hl.endPos_le p v hv

theorem Built.wellPlaced {l : Lattice} (hl : l.Built) : l.WellPlaced := by
  induction hl with
  | setKey bosId hlen => exact wellPlaced_setKey bosId hlen
  | insertNew _ hpos n ih => exact ih.insertNew hpos n
  | write _ f hf ih =>
    refine ⟨ih.key_lt, ih.allocated, ?_, ?_, ?_⟩ <;> intro p v hv
    · exact (hf v).1.trans (ih.beginPos_eq p v hv)
    · exact (hf v).2 ▸ ih.le_endPos p v hv
    · exact (hf v).2 ▸ ih.endPos_le p v hv

end Lattice

section loops

theorem foldl_modify_getElem? {α : Type*} (f : Nat → α → α) (start n : Nat) (xs : List α) (i : Nat) :
    ((List.range' start n).foldl (fun xs j => xs.modify j (f j)) xs)[i]? =
      xs[i]?.map fun x => if start ≤ i ∧ i < start + n then f i x else x := by
  induction n generalizing start xs with
  | zero =>
    have h : ¬(start ≤ i ∧ i < start) := by omega
    simp [h]
  | succ n ih =>
    rw [List.range'_succ, List.foldl_cons, ih, List.getElem?_modify, Option.map_eq_map,
      Option.map_map]
    congr 1
    funext x
    show (if start + 1 ≤ i ∧ i < start + 1 + n then f i (if start = i then f start x else x)
      else if start = i then f start x else x) = _
    by_cases h : start = i
    · subst h
      rw [if_neg (by omega), if_pos rfl, if_pos (by omega)]
    · rw [if_neg h]
      congr 1
      apply propext
      omega

theorem reflTransGen_iff_last {α : Type*} {r : α → α → Prop} {a b : α} :
    Relation.ReflTransGen r a b ↔
      b = a ∨ ∃ c, c ≠ b ∧ Relation.ReflTransGen r a c ∧ r c b := by
  constructor
  · intro h
    induction h with
    | refl => exact .inl rfl
    | @tail c d hc hcd ih =>
      by_cases heq : c = d
      · exact heq ▸ ih
      · exact .inr ⟨c, heq, hc, hcd⟩
  · rintro (rfl | ⟨c, -, hac, hcb⟩)
    · exact .refl
    · exact hac.tail hcb

end loops

section correct

variable {isFunctional : Nat → Bool} {lattice : Lattice}

@[simp] theorem extendRow_length (pos : Nat) (row : List Bool) (v : Nat) :
    (extendRow isFunctional lattice pos row v).length = row.length := by
  rw [extendRow]
  split_ifs <;> simp

theorem extendRow_foldl (pos : Nat) (vs : List Nat) {row : List Bool}
    (hlen : row.length = lattice.key.length + 1) :
    (vs.foldl (extendRow isFunctional lattice pos) row).length = lattice.key.length + 1 ∧
      ∀ j, (vs.foldl (extendRow isFunctional lattice pos) row)[j]? = some true ↔
        row[j]? = some true ∨ (j ≤ lattice.key.length ∧ pos ≠ j ∧
          ∃ v ∈ vs, isKanaFunctionalNode isFunctional (lattice.node v) ∧
            (lattice.node v).endPos = j) := by
  induction vs generalizing row with
  | nil => simp [hlen]
  | cons v vs ih =>
    obtain ⟨hlen', hrow⟩ := @ih (extendRow isFunctional lattice pos row v) (by simp [hlen])
    refine ⟨hlen', fun j => ?_⟩
    rw [List.foldl_cons, hrow]
    have hstep : (extendRow isFunctional lattice pos row v)[j]? = some true ↔
        row[j]? = some true ∨ (j ≤ lattice.key.length ∧ pos ≠ j ∧
          isKanaFunctionalNode isFunctional (lattice.node v) ∧ (lattice.node v).endPos = j) := by
      rw [extendRow]
      split_ifs with h₁ h₂ h₃
      · grind
      · grind
      · grind
      · rw [List.getElem?_set]
        grind
    rw [hstep]
    grind

variable (hl : lattice.WellPlaced)
include hl

theorem FunctionalHop.le {p q : Nat} (h : FunctionalHop isFunctional lattice p q) :
    p ≤ q ∧ q ≤ lattice.key.length := by
  obtain ⟨pos, v, hv, -, rfl, rfl⟩ := h
  rw [hl.beginPos_eq pos v hv]
  exact ⟨hl.le_endPos pos v hv, hl.endPos_le pos v hv⟩

theorem functionalHop_iff {p q : Nat} : FunctionalHop isFunctional lattice p q ↔
    ∃ v ∈ lattice.beginNodes p, isKanaFunctionalNode isFunctional (lattice.node v) ∧
      (lattice.node v).endPos = q := by
  constructor
  · rintro ⟨pos, v, hv, hfun, rfl, rfl⟩
    exact ⟨v, by rwa [hl.beginPos_eq pos v hv], hfun, rfl⟩
  · rintro ⟨v, hv, hfun, rfl⟩
    exact ⟨p, v, hv, hfun, hl.beginPos_eq p v hv, rfl⟩

/-- What a row holds when the sweep has come to `pos`: the chains whose last node begins before. -/
def RowInv (isFunctional : Nat → Bool) (lattice : Lattice) (start pos : Nat) (row : List Bool) :
    Prop :=
  row.length = lattice.key.length + 1 ∧
    ∀ j, row[j]? = some true ↔ j = start ∨ ∃ k < pos, k ≠ j ∧
      FunctionalChain isFunctional lattice start k ∧ FunctionalHop isFunctional lattice k j

theorem RowInv.reached {start pos : Nat} {row : List Bool}
    (h : RowInv isFunctional lattice start pos row) :
    row[pos]? = some true ↔ FunctionalChain isFunctional lattice start pos := by
  rw [h.2, FunctionalChain, reflTransGen_iff_last]
  constructor
  · rintro (rfl | ⟨k, -, hk⟩)
    · exact .inl rfl
    · exact .inr ⟨k, hk⟩
  · rintro (rfl | ⟨k, hne, hchain, hhop⟩)
    · exact .inl rfl
    · have := hhop.le hl
      exact .inr ⟨k, by omega, hne, hchain, hhop⟩

theorem RowInv.sweepPos {start pos : Nat} {row : List Bool}
    (h : RowInv isFunctional lattice start pos row) :
    RowInv isFunctional lattice start (pos + 1) (sweepPos isFunctional lattice row pos) := by
  have hreached := h.reached hl
  obtain ⟨hlen, hrow⟩ := h
  rw [Converter.sweepPos]
  split
  · next hpos =>
    -- nothing is added, and no chain comes to this position
    rw [ne_eq, hreached] at hpos
    refine ⟨hlen, fun j => ?_⟩
    rw [hrow]
    grind
  · next hpos =>
    rw [not_not, hreached] at hpos
    obtain ⟨hlen', hrow'⟩ := @extendRow_foldl isFunctional lattice pos
      (lattice.beginNodes pos) row hlen
    refine ⟨hlen', fun j => ?_⟩
    rw [hrow', hrow, ← functionalHop_iff hl]
    constructor
    · rintro ((rfl | ⟨k, hk, hrest⟩) | ⟨-, hne, hhop⟩)
      · exact .inl rfl
      · exact .inr ⟨k, by omega, hrest⟩
      · exact .inr ⟨pos, by omega, hne, hpos, hhop⟩
    · rintro (rfl | ⟨k, hk, hne, hchain, hhop⟩)
      · exact .inl (.inl rfl)
      · by_cases heq : k = pos
        · subst heq
          exact .inr ⟨(hhop.le hl).2, hne, hhop⟩
        · exact .inl (.inr ⟨k, by omega, hne, hchain, hhop⟩)

theorem RowInv.foldl {start pos : Nat} (n : Nat) {row : List Bool}
    (h : RowInv isFunctional lattice start pos row) :
    RowInv isFunctional lattice start (pos + n)
      ((List.range' pos n).foldl (Converter.sweepPos isFunctional lattice) row) := by
  induction n generalizing pos row with
  | zero => exact h
  | succ n ih =>
    rw [List.range'_succ, List.foldl_cons, ← Nat.add_assoc, Nat.add_right_comm]
    exact ih (h.sweepPos hl)

theorem sweepRow_iff {start : Nat} (hstart : start ≤ lattice.key.length) (j : Nat) :
    (sweepRow isFunctional lattice start
      ((List.replicate (lattice.key.length + 1) false).set start true))[j]? = some true ↔
      FunctionalChain isFunctional lattice start j := by
  have hinit : RowInv isFunctional lattice start start
      ((List.replicate (lattice.key.length + 1) false).set start true) := by
    refine ⟨by simp, fun j => ?_⟩
    have hnone : ¬∃ k < start, k ≠ j ∧ FunctionalChain isFunctional lattice start k ∧
        FunctionalHop isFunctional lattice k j := by
      rintro ⟨k, hk, -, hchain, -⟩
      have hle : start ≤ k := by
        induction hchain with
        | refl => exact le_rfl
        | tail _ hhop ih => grind [hhop.le hl]
      omega
    rw [List.getElem?_set]
    grind
  obtain ⟨-, hrow⟩ := hinit.foldl hl (lattice.key.length - start)
  rw [sweepRow, hrow, FunctionalChain, reflTransGen_iff_last]
  constructor
  · rintro (rfl | ⟨k, -, hk⟩)
    · exact .inl rfl
    · exact .inr ⟨k, hk⟩
  · rintro (rfl | ⟨k, hne, hchain, hhop⟩)
    · exact .inl rfl
    · have := hhop.le hl
      exact .inr ⟨k, by omega, hne, hchain, hhop⟩

end correct

section table

variable {isFunctional : Nat → Bool} {lattice : Lattice}

theorem buildFunctionalReachability_row {beginPos i : Nat} (hb : beginPos ≤ i)
    (hi : i ≤ lattice.key.length) :
    (buildFunctionalReachability isFunctional lattice beginPos)[i]? =
      some (sweepRow isFunctional lattice i
        ((List.replicate (lattice.key.length + 1) false).set i true)) := by
  have hset : beginPos ≤ i ∧ i < beginPos + (lattice.key.length + 1 - beginPos) := by omega
  have hlast : i = lattice.key.length → ∀ row, sweepRow isFunctional lattice i row = row := by
    rintro rfl row
    simp [sweepRow]
  rw [buildFunctionalReachability]
  simp only [foldl_modify_getElem?]
  rw [List.getElem?_replicate, if_pos (by omega), Option.map_some, Option.map_some]
  congr 1
  rw [if_pos hset]
  split
  · rfl
  · rw [hlast (by omega)]

/-- The table has the entry of two positions if a chain of functional nodes joins them, and only
then. -/
theorem hasFunctionalPathInRange_iff (hl : lattice.Built) {beginPos i : Nat} (hb : beginPos ≤ i)
    (hi : i ≤ lattice.key.length) (j : Nat) :
    hasFunctionalPathInRange (buildFunctionalReachability isFunctional lattice beginPos) i j ↔
      FunctionalChain isFunctional lattice i j := by
  rw [hasFunctionalPathInRange, buildFunctionalReachability_row hb hi]
  simp only [beq_iff_eq]
  exact sweepRow_iff hl.wellPlaced hi j

/-- `は` written as it is read, a functional word of its own. -/
def haNode : Node := { key := [0xe3, 0x81, 0xaf], value := [0xe3, 0x81, 0xaf], lid := 1 }

theorem hasFunctionalPathInRange_iff_ha :
    hasFunctionalPathInRange (buildFunctionalReachability (· == 1)
        ((Lattice.setKey [0xe3, 0x81, 0xaf] 0).insertNew 0 haNode) 0) 0 3 ↔
      FunctionalChain (· == 1) ((Lattice.setKey [0xe3, 0x81, 0xaf] 0).insertNew 0 haNode) 0 3 :=
  hasFunctionalPathInRange_iff (.insertNew (.setKey 0 (by decide)) (by decide) haNode)
    (by decide) (by decide) 3

end table

end Mozkey.Converter
