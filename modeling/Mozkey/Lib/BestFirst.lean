import Mozkey.Lib.Relaxation

/-! Best-first search back from a target to the source of a weighted graph, over partial paths that
end in the target.  A partial path is rated by an estimate of the cost before it plus its own cost;
where no edge lowers the estimate by more than its weight, complete paths leave the agenda in the
order of their costs. -/

namespace Mozkey.Lib

namespace WeightedGraph

variable {V : Type*} (g : WeightedGraph V)

def pathCost : List V → Int
  | u :: v :: p => g.weight u v + pathCost (v :: p)
  | _ => 0

structure IsPartial (target : V) (p : List V) : Prop where
  chain : p.IsChain g.edge
  last : p.getLast? = some target

/-- A path along edges from the source to the target. -/
structure IsComplete (target : V) (p : List V) : Prop extends g.IsPartial target p where
  head : p.head? = some g.source

/-- The estimate `h` is consistent on the vertices that may follow the source. -/
structure Consistent (h : V → Int) (live : V → Prop) : Prop where
  source : live g.source ∧ h g.source = 0
  edge : ∀ u v, g.edge u v → live u → live v ∧ h v ≤ h u + g.weight u v

def rating (h : V → Int) : List V → Int
  | [] => 0
  | v :: p => h v + g.pathCost (v :: p)

/-- Every complete path is done or extends a path of the agenda, and live paths of the agenda are
rated no lower than `bound`. -/
structure Frontier (target : V) (h : V → Int) (live : V → Prop) (agenda : List (List V))
    (done : List V → Prop) (bound : Int) : Prop where
  isPartial : ∀ p ∈ agenda, g.IsPartial target p
  bound_le : ∀ v p, (v :: p) ∈ agenda → live v → bound ≤ g.rating h (v :: p)
  covered : ∀ p, g.IsComplete target p → done p ∨ ∃ q ∈ agenda, q <:+ p

variable {g} {target : V} {h : V → Int} {live : V → Prop} {agenda : List (List V)}
  {done : List V → Prop} {bound : Int}

theorem IsPartial.ne_nil {p : List V} (hp : g.IsPartial target p) : p ≠ [] := by
  rintro rfl
  simpa using hp.last

theorem isPartial_singleton : g.IsPartial target [target] :=
  ⟨List.isChain_singleton target, rfl⟩

theorem IsPartial.cons {u v : V} {p : List V} (hp : g.IsPartial target (v :: p))
    (he : g.edge u v) : g.IsPartial target (u :: v :: p) :=
  ⟨List.isChain_cons_cons.mpr ⟨he, hp.chain⟩, by rw [List.getLast?_cons_cons]; exact hp.last⟩

theorem Consistent.rating_le (hc : g.Consistent h live) {u : V} {p q : List V}
    (hchain : (p ++ q).IsChain g.edge) (hq : q ≠ []) (hhead : (p ++ q).head? = some u)
    (hu : live u) : g.rating h q ≤ g.rating h (p ++ q) ∧ ∀ v ∈ q.head?, live v := by
  induction p generalizing u with
  | nil =>
    refine ⟨le_refl _, fun v hv => ?_⟩
    rw [List.nil_append, Option.mem_def.mp hv] at hhead
    rwa [Option.some.inj hhead]
  | cons a p ih =>
    obtain rfl : a = u := by simpa using hhead
    cases hpq : p ++ q with
    | nil => exact absurd (List.append_eq_nil_iff.mp hpq).2 hq
    | cons b rest =>
      rw [List.cons_append, hpq, List.isChain_cons_cons] at hchain
      obtain ⟨hb, hle⟩ := hc.edge a b hchain.1 hu
      obtain ⟨hrating, hlive⟩ := ih (by rw [hpq]; exact hchain.2) (by rw [hpq]; rfl) hb
      refine ⟨?_, hlive⟩
      rw [List.cons_append, hpq]
      rw [hpq] at hrating
      simp only [rating, pathCost] at hrating ⊢
      omega

theorem Consistent.rating_of_head (hc : g.Consistent h live) {p : List V}
    (hhead : p.head? = some g.source) : g.rating h p = g.pathCost p := by
  cases p with
  | nil => rfl
  | cons a p =>
    obtain rfl : a = g.source := by simpa using hhead
    rw [rating, hc.source.2, Int.zero_add]

theorem Frontier.start (hbound : bound ≤ h target) :
    g.Frontier target h live [[target]] done bound where
  isPartial p hp := by
    rw [List.mem_singleton.mp hp]
    exact isPartial_singleton
  bound_le v p hp _ := by
    obtain ⟨rfl, rfl⟩ := List.cons.inj (List.mem_singleton.mp hp)
    simpa [rating, pathCost] using hbound
  covered p hp := by
    refine Or.inr ⟨[target], by simp, ?_⟩
    obtain ⟨ys, rfl⟩ := List.getLast?_eq_some_iff.mp hp.last
    exact List.suffix_append ys [target]

theorem Frontier.of_perm {agenda' : List (List V)}
    (hf : g.Frontier target h live agenda done bound) (hperm : agenda.Perm agenda') :
    g.Frontier target h live agenda' done bound where
  isPartial p hp := hf.isPartial p (hperm.mem_iff.mpr hp)
  bound_le v p hp := hf.bound_le v p (hperm.mem_iff.mpr hp)
  covered p hp := (hf.covered p hp).imp_right fun ⟨q, hq, hsuffix⟩ =>
    ⟨q, hperm.mem_iff.mp hq, hsuffix⟩

theorem Frontier.mono {done' : List V → Prop} (hf : g.Frontier target h live agenda done bound)
    (hdone : ∀ p, done p → done' p) : g.Frontier target h live agenda done' bound where
  isPartial := hf.isPartial
  bound_le := hf.bound_le
  covered p hp := (hf.covered p hp).imp_left (hdone p)

theorem Frontier.giveUp {p : List V} {rest : List (List V)} {done' : List V → Prop}
    (hf : g.Frontier target h live (p :: rest) done bound) (hdone : ∀ p, done' p) :
    g.Frontier target h live rest done' bound where
  isPartial q hq := hf.isPartial q (by simp [hq])
  bound_le v q hq := hf.bound_le v q (by simp [hq])
  covered q _ := Or.inl (hdone q)

theorem Frontier.expand (hc : g.Consistent h live)
    {v : V} {p : List V} {rest children : List (List V)}
    (hf : g.Frontier target h live ((v :: p) :: rest) done bound) (hv : v ≠ g.source)
    (hchildren : ∀ q, q ∈ children ↔ ∃ u, q = u :: v :: p ∧ g.edge u v) :
    g.Frontier target h live (rest ++ children) done bound where
  isPartial q hq := by
    rcases List.mem_append.mp hq with hq | hq
    · exact hf.isPartial q (by simp [hq])
    · obtain ⟨u, rfl, he⟩ := (hchildren q).mp hq
      exact (hf.isPartial (v :: p) (by simp)).cons he
  bound_le w q hq hw := by
    rcases List.mem_append.mp hq with hq | hq
    · exact hf.bound_le w q (by simp [hq]) hw
    · obtain ⟨u, heq, he⟩ := (hchildren _).mp hq
      obtain ⟨rfl, rfl⟩ := List.cons.inj heq
      obtain ⟨hlive, hle⟩ := hc.edge w v he hw
      have := hf.bound_le v p (by simp) hlive
      simp only [rating, pathCost] at this ⊢
      omega
  covered q hq := by
    rcases hf.covered q hq with hdone | ⟨s, hs, hsuffix⟩
    · exact Or.inl hdone
    · refine Or.inr ?_
      rcases List.mem_cons.mp hs with rfl | hs
      · obtain ⟨pre, rfl⟩ := hsuffix
        rcases List.eq_nil_or_concat pre with rfl | ⟨pre, u, rfl⟩
        · have := hq.head
          simp at this
          exact absurd this hv
        · have hchain := hq.chain
          rw [List.concat_eq_append, List.append_assoc, List.singleton_append] at hchain ⊢
          have he := (List.isChain_cons_cons.mp hchain.right_of_append).1
          exact ⟨u :: v :: p, by simp [(hchildren _).mpr ⟨u, rfl, he⟩], pre, rfl⟩
      · exact ⟨s, by simp [hs], hsuffix⟩

/-- A path from the agenda that begins at the source and is rated lowest: no complete path of lower
cost is left, and what remains is rated no lower. -/
theorem Frontier.finish (hc : g.Consistent h live) (hsource : ∀ u, ¬ g.edge u g.source)
    {p : List V} {rest : List (List V)} {done' : List V → Prop}
    (hf : g.Frontier target h live ((g.source :: p) :: rest) done bound)
    (hmin : ∀ q ∈ rest, g.rating h (g.source :: p) ≤ g.rating h q)
    (hdone : ∀ q, done q → done' q) (hp : done' (g.source :: p)) :
    bound ≤ g.pathCost (g.source :: p) ∧
    g.Frontier target h live rest done' (g.pathCost (g.source :: p)) ∧
    ∀ q, g.IsComplete target q → g.pathCost q < g.pathCost (g.source :: p) → done' q := by
  have hcost : g.rating h (g.source :: p) = g.pathCost (g.source :: p) := by
    rw [rating, hc.source.2, Int.zero_add]
  refine ⟨?_, ⟨fun q hq => hf.isPartial q (by simp [hq]), fun v q hq _ => ?_, fun q hq => ?_⟩, ?_⟩
  · rw [← hcost]
    exact hf.bound_le _ _ (by simp) hc.source.1
  · rw [← hcost]
    exact hmin _ hq
  · rcases hf.covered q hq with hq' | ⟨s, hs, hsuffix⟩
    · exact Or.inl (hdone q hq')
    · rcases List.mem_cons.mp hs with rfl | hs
      · obtain ⟨pre, rfl⟩ := hsuffix
        rcases List.eq_nil_or_concat pre with rfl | ⟨pre, u, rfl⟩
        · exact Or.inl hp
        · have hchain := hq.chain
          rw [List.concat_eq_append, List.append_assoc, List.singleton_append] at hchain
          exact absurd (List.isChain_cons_cons.mp hchain.right_of_append).1 (hsource u)
      · exact Or.inr ⟨s, hs, hsuffix⟩
  · intro q hq hlt
    rcases hf.covered q hq with hq' | ⟨s, hs, pre, rfl⟩
    · exact hdone q hq'
    · exfalso
      have hspos := (hf.isPartial s hs).ne_nil
      obtain ⟨hle, _⟩ := hc.rating_le hq.chain hspos hq.head hc.source.1
      have hrating := hc.rating_of_head hq.head
      have hge : g.rating h (g.source :: p) ≤ g.rating h s := by
        rcases List.mem_cons.mp hs with rfl | hs
        · exact le_refl _
        · exact hmin s hs
      omega

theorem IsComplete.le (hc : g.Consistent h live) {p : List V} (hp : g.IsComplete target p) :
    h target ≤ g.pathCost p := by
  obtain ⟨pre, rfl⟩ := List.getLast?_eq_some_iff.mp hp.last
  have hle := (hc.rating_le hp.chain (by simp) hp.head hc.source.1).1
  rw [hc.rating_of_head hp.head] at hle
  simpa [rating, pathCost] using hle

end WeightedGraph

end Mozkey.Lib
