import Mozkey.Lib.RankSelect

/-! Trees in level order, and their level-order unary degree sequence: for every vertex a one for
each child and a zero.  A super-root with one child stands before the root, so that the `k`-th one
is the edge to the `k`-th vertex and the zeros count the vertices whose children are listed. -/

namespace Mozkey.Lib

universe u

variable {α : Type u}

def level (children : α → List α) (root : α) : Nat → List α
  | 0 => [root]
  | d + 1 => (level children root d).flatMap children

/-- The vertices above the depth `d`, level by level. -/
def levels (children : α → List α) (root : α) (d : Nat) : List α :=
  (List.range d).flatMap (level children root)

section

variable {children : α → List α} {root : α}

theorem levels_succ (d : Nat) :
    levels children root (d + 1) = levels children root d ++ level children root d := by
  simp [levels, List.range_succ]

theorem levels_succ' (d : Nat) :
    levels children root (d + 1) = root :: (levels children root d).flatMap children := by
  induction d with
  | zero => rfl
  | succ d ih =>
    rw [levels_succ, level]
    nth_rewrite 1 [ih]
    rw [levels_succ d, List.flatMap_append, List.cons_append]

theorem levels_of_empty {d : Nat} (h : level children root d = []) :
    levels children root d = root :: (levels children root d).flatMap children := by
  rw [← levels_succ', levels_succ, h, List.append_nil]

end

def degreeBits (degree : Nat) : List Bool := List.replicate degree true ++ [false]

def louds (degrees : List Nat) : List Bool := true :: false :: degrees.flatMap degreeBits

/-- All vertices of a tree, the children of each listed in its order behind the root. -/
structure LevelOrder (children : α → List α) (root : α) (nodes : List α) : Prop where
  eq : nodes = root :: nodes.flatMap children

/-- The index of the first child of the `i`-th vertex. -/
def firstChild (children : α → List α) (nodes : List α) (i : Nat) : Nat :=
  1 + ((nodes.take i).flatMap children).length

def degrees (children : α → List α) (nodes : List α) : List Nat :=
  nodes.map fun v => (children v).length

theorem length_louds_degrees (children : α → List α) (nodes : List α) :
    (louds (degrees children nodes)).length =
      (nodes.flatMap children).length + nodes.length + 2 := by
  induction nodes with
  | nil => rfl
  | cons v nodes ih =>
    simp only [louds, degrees, List.length_cons, List.map_cons, List.flatMap_cons,
      List.length_append, degreeBits, List.length_replicate, List.length_nil] at ih ⊢
    omega

theorem count_louds_degrees (children : α → List α) (nodes : List α) :
    (louds (degrees children nodes)).count true = (nodes.flatMap children).length + 1 := by
  induction nodes with
  | nil => rfl
  | cons v nodes ih =>
    simp only [louds, degrees, List.map_cons, List.flatMap_cons, List.count_append,
      List.length_append, degreeBits, List.count_replicate_self, List.count_cons,
      List.count_nil] at ih ⊢
    simp at ih ⊢
    omega

namespace LevelOrder

variable {children : α → List α} {root : α} {nodes : List α} (h : LevelOrder children root nodes)
include h

theorem filter {keep : α → Bool} (hroot : keep root = true)
    (hkeep : ∀ v, ∀ w ∈ children v, keep w = true → keep v = true) :
    LevelOrder (fun v => (children v).filter keep) root (nodes.filter keep) := by
  refine ⟨?_⟩
  have hflat : ∀ vs : List α, (vs.flatMap children).filter keep =
      (vs.filter keep).flatMap fun v => (children v).filter keep := by
    intro vs
    induction vs with
    | nil => rfl
    | cons v vs ih =>
      rw [List.flatMap_cons, List.filter_append, ih]
      by_cases hv : keep v = true
      · rw [List.filter_cons_of_pos hv, List.flatMap_cons]
      · have hnil : (children v).filter keep = [] :=
          List.filter_eq_nil_iff.mpr fun w hw hkw => hv (hkeep v w hw hkw)
        rw [List.filter_cons_of_neg hv, hnil, List.nil_append]
  calc nodes.filter keep = (root :: nodes.flatMap children).filter keep := by rw [← h.eq]
    _ = root :: (nodes.flatMap children).filter keep := List.filter_cons_of_pos hroot
    _ = _ := by rw [hflat]

theorem isPrefix_cons_flatMap {first : List α} (hfirst : first <+: nodes) :
    root :: first.flatMap children <+: nodes := by
  obtain ⟨rest, rfl⟩ := hfirst
  rw [h.eq, List.flatMap_append]
  exact List.prefix_append (root :: first.flatMap children) _

theorem ne_nil : nodes ≠ [] := by
  rw [h.eq]
  exact List.cons_ne_nil _ _

theorem getElem_zero : nodes[0]? = some root := by
  rw [h.eq]
  rfl

variable {i j : Nat} {v w : α}

omit h in
theorem eq_take_append (hv : nodes[i]? = some v) :
    nodes = nodes.take i ++ v :: nodes.drop (i + 1) := by
  obtain ⟨hi, rfl⟩ := List.getElem?_eq_some_iff.mp hv
  rw [List.getElem_cons_drop, List.take_append_drop]

theorem getElem_child (hv : nodes[i]? = some v) (hw : (children v)[j]? = some w) :
    nodes[firstChild children nodes i + j]? = some w := by
  have hj := (List.getElem?_eq_some_iff.mp hw).1
  have hflat := congrArg (List.flatMap children) (eq_take_append hv)
  rw [List.flatMap_append, List.flatMap_cons] at hflat
  rw [firstChild, h.eq, Nat.add_assoc, Nat.add_comm 1, List.getElem?_cons_succ, ← h.eq, hflat,
    List.getElem?_append_right (by omega), Nat.add_sub_cancel_left, List.getElem?_append_left hj, hw]

theorem exists_parent {c : Nat} (hc : nodes[c]? = some w) (hpos : 0 < c) :
    ∃ i v j, nodes[i]? = some v ∧ (children v)[j]? = some w ∧
      c = firstChild children nodes i + j := by
  have hmem : ∀ (xs : List α) (k : Nat), (xs.flatMap children)[k]? = some w →
      ∃ i v j, xs[i]? = some v ∧ (children v)[j]? = some w ∧
        k = ((xs.take i).flatMap children).length + j := by
    intro xs
    induction xs with
    | nil => intro k hk; simp at hk
    | cons x xs ih =>
      intro k hk
      rw [List.flatMap_cons] at hk
      rcases Nat.lt_or_ge k (children x).length with hlt | hge
      · rw [List.getElem?_append_left hlt] at hk
        exact ⟨0, x, k, rfl, hk, by simp⟩
      · rw [List.getElem?_append_right hge] at hk
        obtain ⟨i, v, j, hv, hj, heq⟩ := ih _ hk
        refine ⟨i + 1, v, j, hv, hj, ?_⟩
        rw [List.take_succ_cons, List.flatMap_cons, List.length_append]
        omega
  obtain ⟨c, rfl⟩ : ∃ k, c = k + 1 := ⟨c - 1, by omega⟩
  rw [h.eq, List.getElem?_cons_succ] at hc
  obtain ⟨i, v, j, hv, hw, heq⟩ := hmem nodes c hc
  exact ⟨i, v, j, hv, hw, by rw [firstChild]; omega⟩

omit h in
theorem louds_eq (hv : nodes[i]? = some v) :
    ∃ before behind, louds (degrees children nodes) =
        before ++ false :: (degreeBits (children v).length ++ behind) ∧
      before.length = firstChild children nodes i + i ∧
      before.count true = firstChild children nodes i := by
  have hsplit : louds (degrees children nodes) = louds (degrees children (nodes.take i)) ++
      (degreeBits (children v).length ++
        (degrees children (nodes.drop (i + 1))).flatMap degreeBits) := by
    conv_lhs => rw [eq_take_append hv]
    simp only [louds, degrees, List.map_append, List.map_cons, List.flatMap_append,
      List.flatMap_cons, List.cons_append]
  -- what comes before ends with the zero of the vertex before
  have hlast : ∀ ds : List Nat, ∃ before, louds ds = before ++ [false] := by
    intro ds
    rcases List.eq_nil_or_concat' ds with rfl | ⟨ds, d, rfl⟩
    · exact ⟨[true], rfl⟩
    · refine ⟨louds ds ++ List.replicate d true, ?_⟩
      simp [louds, degreeBits]
  have hi := (List.getElem?_eq_some_iff.mp hv).1
  obtain ⟨before, hbefore⟩ := hlast (degrees children (nodes.take i))
  have hlength := length_louds_degrees children (nodes.take i)
  have hcount := count_louds_degrees children (nodes.take i)
  rw [hbefore, List.length_append, List.length_singleton, List.length_take] at hlength
  rw [hbefore, List.count_append, List.count_singleton, if_neg (by decide)] at hcount
  refine ⟨before, _, by rw [hsplit, hbefore, List.append_assoc]; rfl, ?_, ?_⟩
  · rw [firstChild]
    omega
  · rw [firstChild]
    omega

omit h in
theorem selectsAt_root : SelectsAt true (louds (degrees children nodes)) 1 0 :=
  ⟨rfl, by simp⟩

omit h in
theorem selectsAt_false (hv : nodes[i]? = some v) :
    SelectsAt false (louds (degrees children nodes)) (i + 1)
      (firstChild children nodes i + i) := by
  obtain ⟨before, behind, heq, hlength, hcount⟩ := louds_eq hv
  have := count_true_add_count_false before
  refine ⟨?_, ?_⟩
  · rw [heq, ← hlength, List.getElem?_append_right (le_refl _), Nat.sub_self]
    rfl
  · rw [heq, ← hlength, rank_append_left _ _ (le_refl _), rank_length]
    omega

omit h in
theorem selectsAt_child (hv : nodes[i]? = some v) (hj : j < (children v).length) :
    SelectsAt true (louds (degrees children nodes))
      (firstChild children nodes i + j + 1) (firstChild children nodes i + i + 1 + j) := by
  obtain ⟨before, behind, heq, hlength, hcount⟩ := louds_eq hv
  have hdegree : SelectsAt true (degreeBits (children v).length ++ behind) (j + 1) j := by
    refine SelectsAt.append_right ⟨?_, ?_⟩ behind
    · rw [degreeBits, List.getElem?_append_left (by rwa [List.length_replicate]),
        List.getElem?_replicate, if_pos hj]
    · rw [degreeBits, rank_append_left _ _ (by rw [List.length_replicate]; omega), rank,
        List.take_replicate, List.count_replicate_self, Nat.min_eq_left hj.le]
  have := (hdegree.append_left [false]).append_left before
  rw [heq]
  convert! this using 1
  · rw [hcount, List.count_singleton]
    simp
    omega
  · rw [hlength, List.length_singleton]
    omega

omit h in
theorem getElem_end (hv : nodes[i]? = some v) :
    (louds (degrees children nodes))[firstChild children nodes i + i + 1 +
      (children v).length]? = some false := by
  obtain ⟨before, behind, heq, hlength, -⟩ := louds_eq hv
  rw [heq, ← hlength, List.getElem?_append_right (by omega),
    show before.length + 1 + (children v).length - before.length = (children v).length + 1 by omega,
    List.getElem?_cons_succ, degreeBits, List.append_assoc,
    List.getElem?_append_right (by rw [List.length_replicate])]
  simp

end LevelOrder

end Mozkey.Lib
