import Mathlib

/-! A sequence cut into blocks of one size with a last block of its own size, and numbers as
sequences of bytes, the least significant first. -/

namespace Mozkey.Lib

section Blocks

variable {α : Type*}

/-- `full` blocks of `size` elements, then one of `last`. -/
def splitBlocks (size last : Nat) : (full : Nat) → List α → List (List α)
  | 0, xs => [xs.take last]
  | full + 1, xs => xs.take size :: splitBlocks size last full (xs.drop size)

/-- The blocks have the sizes that `splitBlocks` gives them. -/
def HasSizes (size last full : Nat) (blocks : List (List α)) : Prop :=
  blocks.map List.length = List.replicate full size ++ [last]

variable {size last full : Nat} {blocks : List (List α)}

theorem HasSizes.nil_iff (h : HasSizes size last 0 blocks) :
    ∃ block, blocks = [block] ∧ block.length = last := by
  match blocks, h with
  | [block], h => exact ⟨block, rfl, by simpa [HasSizes] using h⟩
  | [], h => simp [HasSizes] at h
  | _ :: _ :: _, h => simp [HasSizes] at h

theorem HasSizes.cons_iff (h : HasSizes size last (full + 1) blocks) :
    ∃ block rest, blocks = block :: rest ∧ block.length = size ∧ HasSizes size last full rest := by
  match blocks, h with
  | [], h => simp [HasSizes, List.replicate_succ] at h
  | block :: rest, h =>
    rw [HasSizes, List.map_cons, List.replicate_succ, List.cons_append, List.cons.injEq] at h
    exact ⟨block, rest, rfl, h.1, h.2⟩

theorem splitBlocks_flatten (h : HasSizes size last full blocks) :
    splitBlocks size last full blocks.flatten = blocks := by
  induction full generalizing blocks with
  | zero =>
    obtain ⟨block, rfl, rfl⟩ := h.nil_iff
    simp [splitBlocks]
  | succ full ih =>
    obtain ⟨block, rest, rfl, rfl, hrest⟩ := h.cons_iff
    simp [splitBlocks, ih hrest]

theorem splitBlocks_hasSizes {xs : List α} (h : full * size + last ≤ xs.length) :
    HasSizes size last full (splitBlocks size last full xs) := by
  induction full generalizing xs with
  | zero => simpa [HasSizes, splitBlocks] using h
  | succ full ih =>
    rw [Nat.succ_mul] at h
    have hlength : full * size + last ≤ (xs.drop size).length := by
      rw [List.length_drop]
      omega
    have hrest := ih hlength
    rw [HasSizes] at hrest ⊢
    rw [splitBlocks, List.map_cons, hrest, List.length_take, Nat.min_eq_left (by omega)]
    rfl

theorem HasSizes.length_flatten (h : HasSizes size last full blocks) :
    blocks.flatten.length = full * size + last := by
  rw [List.length_flatten, h, List.sum_append, List.sum_replicate, List.sum_singleton, smul_eq_mul]

theorem HasSizes.replicate (full : Nat) (a : α) :
    HasSizes size last full (List.replicate full (List.replicate size a) ++
      [List.replicate last a]) := by
  simp [HasSizes]

theorem HasSizes.modify (h : HasSizes size last full blocks) (i j : Nat) (f : α → α) :
    HasSizes size last full (blocks.modify i (·.modify j f)) := by
  rw [HasSizes, ← h]
  apply List.ext_getElem (by simp)
  intro k _ _
  rw [List.getElem_map, List.getElem_map, List.getElem_modify]
  split <;> simp

theorem HasSizes.exists_getElem (h : HasSizes size last full blocks) {i j : Nat}
    (hi : i < full ∧ j < size ∨ i = full ∧ j < last) :
    ∃ block a, blocks[i]? = some block ∧ block[j]? = some a := by
  induction full generalizing blocks i with
  | zero =>
    obtain ⟨block, rfl, rfl⟩ := h.nil_iff
    obtain ⟨rfl, hj⟩ := hi.resolve_left (by omega)
    exact ⟨block, block[j], rfl, List.getElem?_eq_getElem hj⟩
  | succ full ih =>
    obtain ⟨block, rest, rfl, rfl, hrest⟩ := h.cons_iff
    cases i with
    | zero =>
      have hj : j < block.length := by omega
      exact ⟨block, block[j], rfl, List.getElem?_eq_getElem hj⟩
    | succ i => exact ih hrest (by omega)

end Blocks

section LittleEndian

/-- The bytes of a number, as many as are asked for. -/
def bytesOf : (width : Nat) → Nat → List UInt8
  | 0, _ => []
  | width + 1, n => UInt8.ofNat n :: bytesOf width (n / 256)

def valueOf : List UInt8 → Nat
  | [] => 0
  | byte :: bytes => byte.toNat + 256 * valueOf bytes

@[simp] theorem bytesOf_length (width n : Nat) : (bytesOf width n).length = width := by
  induction width generalizing n with
  | zero => rfl
  | succ width ih => simp [bytesOf, ih]

theorem valueOf_bytesOf {width n : Nat} (h : n < 256 ^ width) : valueOf (bytesOf width n) = n := by
  induction width generalizing n with
  | zero => simpa [bytesOf, valueOf, eq_comm] using h
  | succ width ih =>
    have hdiv : n / 256 < 256 ^ width := Nat.div_lt_of_lt_mul (by rwa [pow_succ'] at h)
    rw [bytesOf, valueOf, ih hdiv, UInt8.toNat_ofNat']
    exact Nat.mod_add_div n 256

theorem valueOf_append (bytes bytes' : List UInt8) :
    valueOf (bytes ++ bytes') = valueOf bytes + 256 ^ bytes.length * valueOf bytes' := by
  induction bytes with
  | nil => simp [valueOf]
  | cons byte bytes ih =>
    rw [List.cons_append, valueOf, valueOf, ih, List.length_cons, pow_succ']
    ring

end LittleEndian

end Mozkey.Lib
