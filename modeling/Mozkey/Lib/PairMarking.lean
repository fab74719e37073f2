import Mathlib

/-! A pass over pairs of nodes that marks both nodes of a pair that meets a criterion, where a mark may
let later pairs meet it.  The nodes stand in lists, one for each position; a pair is a node of the list at
the start and a node of the list that the first leads to.  The marks depend on the order of the lists
unless every pair that the marks of the first kind let in has both its nodes among them. -/

namespace Mozkey.Lib.PairMarking

variable {α ι : Type} [DecidableEq α]

/-- What is known of a pass: the criterion on a pair and on whether its nodes are marked, where a node
leads, and the position of the first nodes. -/
structure Pass (α ι : Type) where
  crit : α → α → Bool → Bool → Bool
  next : α → ι
  start : ι

variable (pass : Pass α ι) (nodes : ι → List α)

def visit (marked : List α) (pair : α × α) : List α :=
  if pass.crit pair.1 pair.2 (pair.1 ∈ marked) (pair.2 ∈ marked) then
    (marked.insert pair.1).insert pair.2
  else marked

def row (a : α) : List (α × α) := (nodes (pass.next a)).map fun b => (a, b)

def pairs : List (α × α) := (nodes pass.start).flatMap (row pass nodes)

def marks : List α := (pairs pass nodes).foldl (visit pass) []

/-- A node of a pair that meets the criterion without marks. -/
def Initial (v : α) : Prop :=
  ∃ pair ∈ pairs pass nodes, pass.crit pair.1 pair.2 false false ∧ (v = pair.1 ∨ v = pair.2)

/-- The pairs that the initial nodes let in are pairs of initial nodes. -/
def Settled : Prop :=
  ∀ pair ∈ pairs pass nodes, ∀ x y : Bool, (x → Initial pass nodes pair.1) →
    (y → Initial pass nodes pair.2) → pass.crit pair.1 pair.2 x y →
    Initial pass nodes pair.1 ∧ Initial pass nodes pair.2

/-- A criterion that marks do not turn off, from the first nodes to others, and lists without
repetition. -/
structure Regular : Prop where
  mono : ∀ a b (x y x' y' : Bool), (x → x') → (y → y') → pass.crit a b x y → pass.crit a b x' y'
  leaves : ∀ a b x y, a ∈ nodes pass.start → pass.crit a b x y → pass.next a ≠ pass.start
  disjoint : ∀ i j v, v ∈ nodes i → v ∈ nodes j → i = j
  nodup : ∀ i, (nodes i).Nodup

section

variable {pass nodes}

omit [DecidableEq α] in
theorem mem_pairs {pair : α × α} : pair ∈ pairs pass nodes ↔
    pair.1 ∈ nodes pass.start ∧ pair.2 ∈ nodes (pass.next pair.1) := by
  simp only [pairs, row, List.mem_flatMap, List.mem_map, Prod.ext_iff]
  constructor
  · rintro ⟨a, ha, b, hb, rfl, rfl⟩
    exact ⟨ha, hb⟩
  · rintro ⟨ha, hb⟩
    exact ⟨pair.1, ha, pair.2, hb, rfl, rfl⟩

theorem subset_visit (marked : List α) (pair : α × α) : marked ⊆ visit pass marked pair := by
  intro v hv
  rw [visit]
  split
  · exact List.mem_insert_of_mem (List.mem_insert_of_mem hv)
  · exact hv

theorem mem_visit {marked : List α} {pair : α × α} {v : α} (h : v ∈ visit pass marked pair) :
    v ∈ marked ∨ (pass.crit pair.1 pair.2 (pair.1 ∈ marked) (pair.2 ∈ marked) ∧
      (v = pair.1 ∨ v = pair.2)) := by
  rw [visit] at h
  split at h
  · next hcrit =>
    rw [List.mem_insert_iff, List.mem_insert_iff] at h
    tauto
  · exact Or.inl h

theorem subset_foldl (marked : List α) (ps : List (α × α)) : marked ⊆ ps.foldl (visit pass) marked := by
  induction ps generalizing marked with
  | nil => exact List.Subset.refl _
  | cons p ps ih => exact List.Subset.trans (subset_visit marked p) (ih _)

theorem Regular.marks_pair (hr : Regular pass nodes) {marked : List α} {ps : List (α × α)}
    {pair : α × α} {x y : Bool} (hmem : pair ∈ ps) (hx : x → pair.1 ∈ marked) (hy : y → pair.2 ∈ marked)
    (hcrit : pass.crit pair.1 pair.2 x y) :
    pair.1 ∈ ps.foldl (visit pass) marked ∧ pair.2 ∈ ps.foldl (visit pass) marked := by
  induction ps generalizing marked with
  | nil => cases hmem
  | cons p ps ih =>
    rw [List.foldl_cons]
    rcases List.mem_cons.mp hmem with rfl | hmem
    · have hnow : pass.crit pair.1 pair.2 (pair.1 ∈ marked) (pair.2 ∈ marked) :=
        hr.mono _ _ _ _ _ _ (by simpa using hx) (by simpa using hy) hcrit
      have hvisit : visit pass marked pair = (marked.insert pair.1).insert pair.2 := by
        rw [visit, if_pos hnow]
      have hsub : visit pass marked pair ⊆ ps.foldl (visit pass) (visit pass marked pair) :=
        subset_foldl _ ps
      rw [hvisit] at hsub ⊢
      exact ⟨hsub (List.mem_insert_of_mem List.mem_insert_self), hsub List.mem_insert_self⟩
    · exact ih hmem (fun h => subset_visit _ _ (hx h)) (fun h => subset_visit _ _ (hy h))

theorem Regular.initial_mem_marks (hr : Regular pass nodes) {v : α} (h : Initial pass nodes v) :
    v ∈ marks pass nodes := by
  obtain ⟨pair, hmem, hcrit, rfl | rfl⟩ := h
  · exact (hr.marks_pair hmem (fun h => absurd h Bool.false_ne_true)
      (fun h => absurd h Bool.false_ne_true) hcrit).1
  · exact (hr.marks_pair hmem (fun h => absurd h Bool.false_ne_true)
      (fun h => absurd h Bool.false_ne_true) hcrit).2

theorem Settled.mem_marks (hs : Settled pass nodes) {v : α} (hv : v ∈ marks pass nodes) :
    Initial pass nodes v := by
  have hinv : ∀ ps : List (α × α), ps ⊆ pairs pass nodes → ∀ marked : List α,
      (∀ v ∈ marked, Initial pass nodes v) →
      ∀ v ∈ ps.foldl (visit pass) marked, Initial pass nodes v := by
    intro ps
    induction ps with
    | nil => exact fun _ _ h => h
    | cons p ps ih =>
      intro hsub marked hmarked
      refine ih (fun q hq => hsub (List.mem_cons_of_mem _ hq)) _ fun v hv => ?_
      rcases mem_visit hv with h | ⟨hcrit, h⟩
      · exact hmarked v h
      · have hboth := hs p (hsub List.mem_cons_self) _ _ (fun h => hmarked _ (of_decide_eq_true h))
          (fun h => hmarked _ (of_decide_eq_true h)) hcrit
        rcases h with rfl | rfl
        · exact hboth.1
        · exact hboth.2
  exact hinv _ (List.Subset.refl _) [] (fun _ h => absurd h List.not_mem_nil) v hv

theorem Regular.mem_marks_iff (hr : Regular pass nodes) (hs : Settled pass nodes) (v : α) :
    v ∈ marks pass nodes ↔ Initial pass nodes v :=
  ⟨hs.mem_marks, hr.initial_mem_marks⟩

omit [DecidableEq α] in
theorem Regular.not_first (hr : Regular pass nodes) {pair : α × α} {x y : Bool}
    (hmem : pair ∈ pairs pass nodes) (hcrit : pass.crit pair.1 pair.2 x y) :
    pair.2 ∉ nodes pass.start := by
  intro h
  obtain ⟨hfirst, hsecond⟩ := mem_pairs.mp hmem
  exact hr.leaves _ _ _ _ hfirst hcrit (hr.disjoint _ _ _ hsecond h)

end

section perm

variable {pass nodes} {nodes' : ι → List α}

omit [DecidableEq α] in
theorem mem_pairs_perm (hperm : ∀ i, (nodes' i).Perm (nodes i)) (pair : α × α) :
    pair ∈ pairs pass nodes' ↔ pair ∈ pairs pass nodes := by
  rw [mem_pairs, mem_pairs, (hperm _).mem_iff, (hperm _).mem_iff]

omit [DecidableEq α] in
theorem initial_perm (hperm : ∀ i, (nodes' i).Perm (nodes i)) (v : α) :
    Initial pass nodes' v ↔ Initial pass nodes v := by
  simp only [Initial, mem_pairs_perm hperm]

omit [DecidableEq α] in
theorem Regular.perm (hr : Regular pass nodes) (hperm : ∀ i, (nodes' i).Perm (nodes i)) :
    Regular pass nodes' := by
  refine ⟨hr.mono, ?_, ?_, fun i => (hperm i).nodup_iff.mpr (hr.nodup i)⟩
  · intro a b x y ha hcrit
    exact hr.leaves a b x y ((hperm _).mem_iff.mp ha) hcrit
  · intro i j v hi hj
    exact hr.disjoint i j v ((hperm i).mem_iff.mp hi) ((hperm j).mem_iff.mp hj)

end perm

section orders

variable {pass nodes}

omit [DecidableEq α] in
theorem row_sublist_pairs {a : α} (h : a ∈ nodes pass.start) :
    (row pass nodes a).Sublist (pairs pass nodes) := by
  obtain ⟨as, as', has⟩ := List.append_of_mem h
  rw [pairs, has, List.flatMap_append, List.flatMap_cons]
  exact (List.sublist_append_left _ _).trans (List.sublist_append_right _ _)

theorem Regular.marks_later (hr : Regular pass nodes) {p q : α × α} {x y : Bool}
    (hsub : [p, q].Sublist (pairs pass nodes)) (hp : pass.crit p.1 p.2 false false)
    (hx : x → q.1 = p.1 ∨ q.1 = p.2) (hy : y → q.2 = p.1 ∨ q.2 = p.2)
    (hq : pass.crit q.1 q.2 x y) :
    q.1 ∈ marks pass nodes ∧ q.2 ∈ marks pass nodes := by
  obtain ⟨ps, qs, hsplit, hpmem, hqmem⟩ := List.cons_sublist_iff.mp hsub
  rw [List.singleton_sublist] at hqmem
  have hfirst : p.1 ∈ ps.foldl (visit pass) [] ∧ p.2 ∈ ps.foldl (visit pass) [] :=
    hr.marks_pair hpmem (fun h => absurd h Bool.false_ne_true)
      (fun h => absurd h Bool.false_ne_true) hp
  rw [marks, hsplit, List.foldl_append]
  refine hr.marks_pair hqmem (fun h => ?_) (fun h => ?_) hq
  · rcases hx h with h | h
    · rw [h]
      exact hfirst.1
    · rw [h]
      exact hfirst.2
  · rcases hy h with h | h
    · rw [h]
      exact hfirst.1
    · rw [h]
      exact hfirst.2

/-- A pass that is not settled marks more than the initial nodes in some order of the lists. -/
theorem Regular.exists_more [DecidableEq ι] (hr : Regular pass nodes) (hs : ¬Settled pass nodes) :
    ∃ nodes' : ι → List α, (∀ i, (nodes' i).Perm (nodes i)) ∧
      ∃ i, ∃ v ∈ nodes i, v ∈ marks pass nodes' ∧ ¬Initial pass nodes v := by
  simp only [Settled, not_forall] at hs
  obtain ⟨⟨a, b⟩, hmem, x, y, hx, hy, hcrit, hnot⟩ := hs
  obtain ⟨ha, hb⟩ := mem_pairs.mp hmem
  have hleaves := hr.leaves a b x y ha hcrit
  by_cases hinit : Initial pass nodes a
  · -- The first node is initial by another second node, which is put first.
    have hnotb : ¬Initial pass nodes b := fun h => hnot ⟨hinit, h⟩
    obtain ⟨⟨a', b'⟩, hmem', hcrit', h⟩ := hinit
    have haa' : a = a' := h.resolve_right fun h => by
      subst h
      exact hr.not_first hmem' hcrit' ha
    subst haa'
    have hbb' : b ≠ b' := by
      rintro rfl
      exact hnotb ⟨(a, b), hmem', hcrit', Or.inr rfl⟩
    have hb' := (mem_pairs.mp hmem').2
    have hperm : ∀ i, (Function.update nodes (pass.next a)
        (b' :: (nodes (pass.next a)).erase b') i).Perm (nodes i) := by
      intro i
      by_cases hi : i = pass.next a
      · rw [hi, Function.update_self]
        exact (List.perm_cons_erase hb').symm
      · rw [Function.update_of_ne hi]
    have hsub : [(a, b'), (a, b)].Sublist (pairs pass (Function.update nodes (pass.next a)
        (b' :: (nodes (pass.next a)).erase b'))) := by
      refine List.Sublist.trans ?_ (row_sublist_pairs (a := a) ?_)
      · rw [row, Function.update_self, List.map_cons]
        refine List.Sublist.cons_cons _ (List.singleton_sublist.mpr ?_)
        exact List.mem_map.mpr ⟨b, (List.mem_erase_of_ne hbb').mpr hb, rfl⟩
      · rwa [Function.update_of_ne hleaves.symm]
    refine ⟨_, hperm, pass.next a, b, hb, ?_, hnotb⟩
    have hnoty : y = false := Bool.eq_false_iff.mpr fun h => hnotb (hy h)
    exact ((hr.perm hperm).marks_later hsub hcrit' (fun _ => Or.inl rfl)
      (fun h => absurd (hnoty ▸ h) Bool.false_ne_true) hcrit).2
  · -- The second node is initial by another first node, which is put first.
    have hnotx : x = false := Bool.eq_false_iff.mpr fun h => hinit (hx h)
    have hytrue : y = true := by
      cases y with
      | true => rfl
      | false =>
        rw [hnotx] at hcrit
        exact absurd ⟨(a, b), hmem, hcrit, Or.inl rfl⟩ hinit
    obtain ⟨⟨a', b'⟩, hmem', hcrit', h⟩ := hy hytrue
    have hbb' : b = b' := h.resolve_left fun h => by
      subst h
      exact hr.not_first hmem hcrit (mem_pairs.mp hmem').1
    subst hbb'
    have haa' : a ≠ a' := by
      rintro rfl
      exact hinit ⟨(a, b), hmem', hcrit', Or.inl rfl⟩
    obtain ⟨ha', hb'⟩ := mem_pairs.mp hmem'
    have hleaves' := hr.leaves a' b false false ha' hcrit'
    have hperm : ∀ i, (Function.update nodes pass.start
        (a' :: (nodes pass.start).erase a') i).Perm (nodes i) := by
      intro i
      by_cases hi : i = pass.start
      · rw [hi, Function.update_self]
        exact (List.perm_cons_erase ha').symm
      · rw [Function.update_of_ne hi]
    have hsub : [(a', b), (a, b)].Sublist (pairs pass (Function.update nodes pass.start
        (a' :: (nodes pass.start).erase a'))) := by
      rw [pairs, Function.update_self, List.flatMap_cons]
      rw [show [(a', b), (a, b)] = [(a', b)] ++ [(a, b)] by rfl]
      refine List.Sublist.append ?_ ?_
      · rw [row, Function.update_of_ne hleaves']
        exact List.singleton_sublist.mpr (List.mem_map.mpr ⟨b, hb', rfl⟩)
      · refine List.singleton_sublist.mpr (List.mem_flatMap.mpr
          ⟨a, (List.mem_erase_of_ne haa').mpr ha, ?_⟩)
        rw [row, Function.update_of_ne hleaves]
        exact List.mem_map.mpr ⟨b, hb, rfl⟩
    refine ⟨_, hperm, pass.start, a, ha, ?_, hinit⟩
    exact ((hr.perm hperm).marks_later hsub hcrit' (fun h => absurd (hnotx ▸ h) Bool.false_ne_true)
      (fun _ => Or.inr rfl) hcrit).1

theorem mem_foldl_visit {marked : List α} {ps : List (α × α)} {v : α}
    (h : v ∈ ps.foldl (visit pass) marked) :
    v ∈ marked ∨ ∃ p ∈ ps, ∃ x y, pass.crit p.1 p.2 x y ∧ (v = p.1 ∨ v = p.2) := by
  induction ps generalizing marked with
  | nil => exact Or.inl h
  | cons p ps ih =>
    rcases ih h with h | ⟨q, hq, h⟩
    · rcases mem_visit h with h | ⟨hcrit, h⟩
      · exact Or.inl h
      · exact Or.inr ⟨p, List.mem_cons_self, _, _, hcrit, h⟩
    · exact Or.inr ⟨q, List.mem_cons_of_mem _ hq, h⟩

theorem foldl_visit_of_not {marked : List α} {ps : List (α × α)}
    (h : ∀ p ∈ ps, ¬pass.crit p.1 p.2 (p.1 ∈ marked) (p.2 ∈ marked)) :
    ps.foldl (visit pass) marked = marked := by
  induction ps with
  | nil => rfl
  | cons p ps ih =>
    rw [List.foldl_cons, visit, if_neg (h p List.mem_cons_self),
      ih fun q hq => h q (List.mem_cons_of_mem _ hq)]

/-- With the initial nodes last in every list a pass marks the initial nodes only. -/
theorem Regular.exists_least (hr : Regular pass nodes) :
    ∃ nodes' : ι → List α, (∀ i, (nodes' i).Perm (nodes i)) ∧
      ∀ v, v ∈ marks pass nodes' ↔ Initial pass nodes v := by
  classical
  obtain ⟨nodes', hlist⟩ : ∃ nodes' : ι → List α, ∀ i, nodes' i =
      (nodes i).filter (fun v => ¬Initial pass nodes v) ++
        (nodes i).filter (fun v => Initial pass nodes v) := ⟨_, fun _ => rfl⟩
  have hperm : ∀ i, (nodes' i).Perm (nodes i) := by
    intro i
    rw [hlist]
    refine List.perm_append_comm.trans ?_
    simpa using List.filter_append_perm (fun v => decide (Initial pass nodes v)) (nodes i)
  have hr' := hr.perm hperm
  refine ⟨nodes', hperm, fun v => ⟨fun hv => ?_, fun h =>
    hr'.initial_mem_marks ((initial_perm hperm v).mpr h)⟩⟩
  have hmemPairs : ∀ a b, a ∈ nodes pass.start → b ∈ nodes (pass.next a) →
      (a, b) ∈ pairs pass nodes := fun a b ha hb => mem_pairs.mpr ⟨ha, hb⟩
  -- The rows of the first nodes that are not initial mark nothing.
  have hbefore : (((nodes pass.start).filter (fun v => ¬Initial pass nodes v)).flatMap
      (row pass nodes')).foldl (visit pass) [] = [] := by
    refine foldl_visit_of_not fun p hp hcrit => ?_
    obtain ⟨a, ha, hrow⟩ := List.mem_flatMap.mp hp
    obtain ⟨b, hb, rfl⟩ := List.mem_map.mp hrow
    obtain ⟨hastart, hnot⟩ := List.mem_filter.mp ha
    rw [decide_eq_true_eq] at hnot
    refine hnot ⟨(a, b), hmemPairs a b hastart ((hperm _).mem_iff.mp hb), ?_, Or.inl rfl⟩
    simpa using hcrit
  -- In the row of an initial node, which has no mark yet, the nodes that are not initial come first.
  have hafter : ∀ as : List α, as ⊆ nodes pass.start → as.Nodup →
      (∀ a ∈ as, Initial pass nodes a) → ∀ marked : List α,
      (∀ v ∈ marked, Initial pass nodes v) → (∀ a ∈ as, a ∉ marked) →
      ∀ v ∈ (as.flatMap (row pass nodes')).foldl (visit pass) marked, Initial pass nodes v := by
    intro as
    induction as with
    | nil => exact fun _ _ _ _ h _ => h
    | cons a as ih =>
      intro hsub hnodup hinit marked hmarked hfresh
      have ha := hsub List.mem_cons_self
      have hrow : row pass nodes' a =
          ((nodes (pass.next a)).filter (fun v => ¬Initial pass nodes v)).map (fun b => (a, b)) ++
          ((nodes (pass.next a)).filter (fun v => Initial pass nodes v)).map fun b => (a, b) := by
        rw [row, hlist, List.map_append]
      have hfirst : (((nodes (pass.next a)).filter (fun v => ¬Initial pass nodes v)).map
          fun b => (a, b)).foldl (visit pass) marked = marked := by
        refine foldl_visit_of_not fun p hp hcrit => ?_
        obtain ⟨b, hb, rfl⟩ := List.mem_map.mp hp
        obtain ⟨hbmem, hnot⟩ := List.mem_filter.mp hb
        rw [decide_eq_true_eq] at hnot
        have hbmarked : b ∉ marked := fun h => hnot (hmarked b h)
        refine hnot ⟨(a, b), hmemPairs a b ha hbmem, ?_, Or.inr rfl⟩
        simpa [hfresh a List.mem_cons_self, hbmarked] using hcrit
      rw [List.flatMap_cons, List.foldl_append, hrow, List.foldl_append, hfirst]
      have hmarks : ∀ v ∈ (((nodes (pass.next a)).filter (fun v => Initial pass nodes v)).map
          fun b => (a, b)).foldl (visit pass) marked, v ∈ marked ∨ v = a ∨
            (Initial pass nodes v ∧ v ∉ nodes pass.start) := by
        intro v hv
        rcases mem_foldl_visit hv with h | ⟨p, hp, x, y, hcrit, h⟩
        · exact Or.inl h
        · obtain ⟨b, hb, rfl⟩ := List.mem_map.mp hp
          obtain ⟨hbmem, hbinit⟩ := List.mem_filter.mp hb
          rw [decide_eq_true_eq] at hbinit
          rcases h with rfl | rfl
          · exact Or.inr (Or.inl rfl)
          · exact Or.inr (Or.inr ⟨hbinit, hr.not_first (hmemPairs a _ ha hbmem) hcrit⟩)
      refine ih (fun b hb => hsub (List.mem_cons_of_mem _ hb)) (List.nodup_cons.mp hnodup).2
        (fun b hb => hinit b (List.mem_cons_of_mem _ hb)) _ ?_ ?_
      · intro v hv
        rcases hmarks v hv with h | rfl | ⟨h, -⟩
        · exact hmarked v h
        · exact hinit v List.mem_cons_self
        · exact h
      · intro b hb hmem
        rcases hmarks b hmem with h | rfl | ⟨-, h⟩
        · exact hfresh b (List.mem_cons_of_mem _ hb) h
        · exact (List.nodup_cons.mp hnodup).1 hb
        · exact h (hsub (List.mem_cons_of_mem _ hb))
  rw [marks, pairs, hlist, List.flatMap_append, List.foldl_append, hbefore] at hv
  refine hafter _ (List.filter_subset_self _) ((hr.nodup _).filter _) ?_ [] ?_ ?_ v hv
  · intro a ha
    exact of_decide_eq_true (List.mem_filter.mp ha).2
  · exact fun _ h => absurd h List.not_mem_nil
  · exact fun _ _ => List.not_mem_nil

end orders

end Mozkey.Lib.PairMarking
