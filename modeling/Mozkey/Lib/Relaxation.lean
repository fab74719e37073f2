import Mathlib

/-! Least-cost walks from a source in a weighted graph, and the labels that a relaxation leaves at
its vertices.  `Traced` says that every label comes from the label of its predecessor, `Relaxed`
that no edge improves a label.  In a graph whose edges raise a rank, a traced label is the cost of
the walk along the predecessors, and a relaxed label is the least cost of a walk. -/

namespace Mozkey.Lib

/-- A directed graph with a source and a weight on every pair of vertices. -/
structure WeightedGraph (V : Type*) where
  edge : V → V → Prop
  weight : V → V → Int
  source : V

/-- What a search leaves at a vertex: the vertex before it, and the cost so far. -/
structure Labels (V : Type*) where
  pred : V → Option V
  cost : V → Int

namespace WeightedGraph

variable {V : Type*} (g : WeightedGraph V)

/-- `g.Walk v p c`: the vertices `p`, the source first, walk to `v` at cost `c`. -/
inductive Walk : V → List V → Int → Prop
  | source : Walk g.source [g.source] 0
  | snoc {u v : V} {p : List V} {c : Int} :
      Walk u p c → g.edge u v → Walk v (p ++ [v]) (c + g.weight u v)

def Ranked (rank : V → Nat) : Prop := ∀ u v, g.edge u v → rank u < rank v

/-- A vertex with a label: the source, or a vertex with a predecessor. -/
def Labelled (L : Labels V) (v : V) : Prop := v = g.source ∨ (L.pred v).isSome

/-- Every label comes from its predecessor's label along an edge. -/
structure Traced (L : Labels V) : Prop where
  cost_source : L.cost g.source = 0
  pred_source : L.pred g.source = none
  step : ∀ v u, L.pred v = some u →
    g.edge u v ∧ g.Labelled L u ∧ L.cost v = L.cost u + g.weight u v

/-- No edge from a labelled vertex improves a label. -/
structure Relaxed (L : Labels V) : Prop extends g.Traced L where
  edge_le : ∀ u v, g.edge u v → g.Labelled L u →
    g.Labelled L v ∧ L.cost v ≤ L.cost u + g.weight u v

end WeightedGraph

/-- The vertices along the predecessors of `v`, `v` last, over at most `n` steps back. -/
def Labels.back {V : Type*} (L : Labels V) : Nat → V → List V
  | 0, v => [v]
  | n + 1, v =>
    match L.pred v with
    | none => [v]
    | some u => L.back n u ++ [v]

theorem Labels.getLast?_back {V : Type*} (L : Labels V) (n : Nat) (v : V) : (L.back n v).getLast? = some v := by
  cases n with
  | zero => rfl
  | succ n =>
    rw [Labels.back]
    split <;> simp

theorem Labels.back_ne_nil {V : Type*} (L : Labels V) (n : Nat) (v : V) : L.back n v ≠ [] :=
  fun h => by simpa [h] using L.getLast?_back n v

theorem Labels.back_of_none {V : Type*} (L : Labels V) (n : Nat) {v : V} (h : L.pred v = none) :
    L.back n v = [v] := by
  cases n <;> simp [Labels.back, h]

theorem Labels.back_of_some {V : Type*} (L : Labels V) (n : Nat) {u v : V} (h : L.pred v = some u) :
    L.back (n + 1) v = L.back n u ++ [v] := by
  simp [Labels.back, h]

theorem Labels.isChain_back {V : Type*} (L : Labels V) (n : Nat) (v : V) :
    (L.back n v).IsChain (fun u w => L.pred w = some u) := by
  induction n generalizing v with
  | zero => exact List.isChain_singleton v
  | succ n ih =>
    cases hp : L.pred v with
    | none =>
      rw [L.back_of_none _ hp]
      exact List.isChain_singleton v
    | some u =>
      rw [L.back_of_some _ hp, List.isChain_append]
      refine ⟨ih u, List.isChain_singleton v, fun x hx y hy => ?_⟩
      rw [L.getLast?_back, Option.mem_some_iff] at hx
      rw [List.head?_cons, Option.mem_some_iff] at hy
      rw [← hx, ← hy, hp]

namespace WeightedGraph

variable {V : Type*} {g : WeightedGraph V} {L : Labels V} {rank : V → Nat}

theorem Walk.head? {v : V} {p : List V} {c : Int} (h : g.Walk v p c) :
    p.head? = some g.source := by
  induction h with
  | source => rfl
  | snoc _ _ ih => rw [List.head?_append, ih, Option.some_or]

theorem Traced.walk_back (ht : g.Traced L) (hr : g.Ranked rank) (n : Nat) (v : V)
    (hn : rank v ≤ n) (hv : g.Labelled L v) : g.Walk v (L.back n v) (L.cost v) := by
  induction n generalizing v with
  | zero =>
    rcases hv with rfl | hv
    · rw [ht.cost_source]
      exact Walk.source
    · obtain ⟨u, hu⟩ := Option.isSome_iff_exists.mp hv
      have := hr u v (ht.step v u hu).1
      omega
  | succ n ih =>
    cases hp : L.pred v with
    | none =>
      obtain rfl : v = g.source := by
        rcases hv with rfl | hv
        · rfl
        · simp [hp] at hv
      simp only [Labels.back, hp, ht.cost_source]
      exact Walk.source
    | some u =>
      obtain ⟨he, hu, hc⟩ := ht.step v u hp
      have := hr u v he
      simp only [Labels.back, hp, hc]
      exact Walk.snoc (ih u (by omega) hu) he

theorem Traced.exists_walk (ht : g.Traced L) (hr : g.Ranked rank) {v : V}
    (hv : g.Labelled L v) : ∃ p, g.Walk v p (L.cost v) :=
  ⟨_, ht.walk_back hr (rank v) v (Nat.le_refl _) hv⟩

theorem Traced.pairwise_back (ht : g.Traced L) (hr : g.Ranked rank) (n : Nat) (v : V) :
    (L.back n v).Pairwise (fun a b => rank a < rank b) ∧ ∀ u ∈ L.back n v, rank u ≤ rank v := by
  induction n generalizing v with
  | zero => simp [Labels.back]
  | succ n ih =>
    cases hp : L.pred v with
    | none => simp [Labels.back, hp]
    | some u =>
      obtain ⟨hpair, hle⟩ := ih u
      have hlt := hr u v (ht.step v u hp).1
      simp only [Labels.back, hp]
      refine ⟨List.pairwise_append.mpr ⟨hpair, by simp, fun a ha b hb => ?_⟩, fun a ha => ?_⟩
      · have := hle a ha
        rw [List.mem_singleton.mp hb]
        omega
      · rcases List.mem_append.mp ha with ha | ha
        · have := hle a ha
          omega
        · rw [List.mem_singleton.mp ha]

theorem Traced.nodup_back (ht : g.Traced L) (hr : g.Ranked rank) (n : Nat) (v : V) :
    (L.back n v).Nodup :=
  (ht.pairwise_back hr n v).1.imp fun h heq => by simp [heq] at h

theorem Traced.length_back_le (ht : g.Traced L) (hr : g.Ranked rank) {vs : List V}
    (hvs : ∀ v, g.Labelled L v → v ∈ vs) (n : Nat) (v : V) (hv : v ∈ vs) :
    (L.back n v).length ≤ vs.length := by
  refine (List.subperm_of_subset (ht.nodup_back hr n v) ?_).length_le
  induction n generalizing v with
  | zero => simpa [Labels.back] using hv
  | succ n ih =>
    cases hp : L.pred v with
    | none => simpa [Labels.back, hp] using hv
    | some u =>
      have hu := (ht.step v u hp).2.1
      simp only [Labels.back, hp]
      exact List.append_subset.mpr ⟨ih u (hvs u hu), by simpa using hv⟩

theorem Relaxed.le (hl : g.Relaxed L) {v : V} {p : List V} {c : Int} (h : g.Walk v p c) :
    g.Labelled L v ∧ L.cost v ≤ c := by
  induction h with
  | source => exact ⟨Or.inl rfl, hl.cost_source.le⟩
  | @snoc u v p c _ he ih =>
    obtain ⟨hv, hle⟩ := hl.edge_le u v he ih.1
    exact ⟨hv, by have := ih.2; omega⟩

theorem Relaxed.labelled_iff (hl : g.Relaxed L) (hr : g.Ranked rank) (v : V) :
    g.Labelled L v ↔ ∃ p c, g.Walk v p c := by
  constructor
  · intro hv
    obtain ⟨p, hp⟩ := hl.exists_walk hr hv
    exact ⟨p, _, hp⟩
  · rintro ⟨p, c, hp⟩
    exact (hl.le hp).1

theorem Relaxed.isLeast (hl : g.Relaxed L) (hr : g.Ranked rank) {v : V}
    (hv : g.Labelled L v) : IsLeast {c | ∃ p, g.Walk v p c} (L.cost v) :=
  ⟨hl.exists_walk hr hv, fun _ ⟨_, hp⟩ => (hl.le hp).2⟩

theorem Relaxed.unique {L' : Labels V} (hl : g.Relaxed L) (hl' : g.Relaxed L')
    (hr : g.Ranked rank) (v : V) :
    (g.Labelled L v ↔ g.Labelled L' v) ∧ (g.Labelled L v → L.cost v = L'.cost v) := by
  have hiff : g.Labelled L v ↔ g.Labelled L' v :=
    (hl.labelled_iff hr v).trans (hl'.labelled_iff hr v).symm
  exact ⟨hiff, fun hv => (hl.isLeast hr hv).unique (hl'.isLeast hr (hiff.mp hv))⟩

/-- Labels that were relaxed only where the cost before the last vertex's own part `stepCost` stays
below a bound are relaxed when every walk stays below it. -/
theorem Traced.relaxed_of_bounded (ht : g.Traced L) (hr : g.Ranked rank) {bound : Int}
    {stepCost : V → V → Int}
    (hb : ∀ u p c v, g.Walk u p c → g.edge u v → c + stepCost u v < bound)
    (he : ∀ u v, g.edge u v → g.Labelled L u → L.cost u + stepCost u v < bound →
      g.Labelled L v ∧ L.cost v ≤ L.cost u + g.weight u v) : g.Relaxed L where
  toTraced := ht
  edge_le u v huv hu := by
    obtain ⟨p, hp⟩ := ht.exists_walk hr hu
    exact he u v huv hu (hb u p _ v hp huv)

end WeightedGraph

/-- The scan of a relaxation: the first element with the least cost below a bound, among those
that are valid, and its cost. -/
def leastBelow {V : Type*} (valid : V → Bool) (cost : V → Int) (bound : Int) (xs : List V) :
    Int × Option V :=
  xs.foldl
    (fun (best, node) x =>
      if valid x then if cost x < best then (cost x, some x) else (best, node) else (best, node))
    (bound, none)

section

variable {V : Type*} {valid : V → Bool} {cost : V → Int} {bound : Int} {xs : List V}

theorem leastBelow_snoc (x : V) : leastBelow valid cost bound (xs ++ [x]) =
    if valid x ∧ cost x < (leastBelow valid cost bound xs).1 then (cost x, some x)
    else leastBelow valid cost bound xs := by
  simp only [leastBelow, List.foldl_append, List.foldl_cons, List.foldl_nil]
  grind

theorem leastBelow_congr {valid' : V → Bool} {cost' : V → Int}
    (h : ∀ x ∈ xs, valid x = valid' x ∧ cost x = cost' x) :
    leastBelow valid cost bound xs = leastBelow valid' cost' bound xs := by
  induction xs using List.reverseRecOn with
  | nil => rfl
  | append_singleton xs x ih =>
    obtain ⟨hv, hc⟩ := h x (by simp)
    rw [leastBelow_snoc, leastBelow_snoc, ih fun y hy => h y (by simp [hy]), hv, hc]

theorem leastBelow_le_bound : (leastBelow valid cost bound xs).1 ≤ bound := by
  induction xs using List.reverseRecOn with
  | nil => exact le_refl _
  | append_singleton xs x ih =>
    rw [leastBelow_snoc]
    grind

theorem leastBelow_le : ∀ x ∈ xs, valid x → (leastBelow valid cost bound xs).1 ≤ cost x := by
  induction xs using List.reverseRecOn with
  | nil => simp
  | append_singleton xs y ih =>
    intro x hx hv
    rw [leastBelow_snoc]
    rcases List.mem_append.mp hx with hx | hx
    · have := ih x hx hv
      grind
    · rw [← List.mem_singleton.mp hx]
      grind

theorem leastBelow_eq_none (h : (leastBelow valid cost bound xs).2 = none) :
    (leastBelow valid cost bound xs).1 = bound := by
  induction xs using List.reverseRecOn with
  | nil => rfl
  | append_singleton xs y ih =>
    rw [leastBelow_snoc] at h ⊢
    grind

theorem leastBelow_eq_some {x : V} (h : (leastBelow valid cost bound xs).2 = some x) :
    x ∈ xs ∧ valid x ∧ (leastBelow valid cost bound xs).1 = cost x ∧ cost x < bound := by
  induction xs using List.reverseRecOn with
  | nil => cases h
  | append_singleton xs y ih =>
    have hb := @leastBelow_le_bound _ valid cost bound xs
    rw [leastBelow_snoc] at h ⊢
    grind

end

end Mozkey.Lib
