import Mozkey.Converter.ShortCompoundSplit
import Mozkey.Lib.PairMarking

/-! The order of the nodes of a position and the costs after `ApplyShortCompoundSplitGuard`.  The guard is
a pass that marks the nodes of competing pairs; a penalty makes the pairs of its node dearer, which lets
them compete too if they are looked at later. -/

namespace Mozkey.Converter

open Base Lib.PairMarking

def Node.unlinked (n : Node) : Node := { n.unlabelled with constrainedPrev := none }

namespace Lattice

/-- A placed lattice into which every node was inserted once. -/
structure InsertedOnce (l : Lattice) : Prop extends Placed l where
  nodup : ∀ pos, (l.beginNodes pos).Nodup
  unique : ∀ p q v, v ∈ l.beginNodes p → v ∈ l.beginNodes q → p = q

/-- The nodes that begin at a position, in the order of their insertion. -/
def nodesAt (l : Lattice) (pos : Nat) : List Node := (l.beginNodes pos).map fun v => (l.node v).unlinked

/-- Lattices with the same nodes at every position, in any order. -/
structure SameNodes (l l' : Lattice) : Prop where
  key : l'.key = l.key
  perm : ∀ pos, (l'.nodesAt pos).Perm (l.nodesAt pos)

theorem SameNodes.symm {l l' : Lattice} (h : SameNodes l l') : SameNodes l' l :=
  ⟨h.key.symm, fun pos => (h.perm pos).symm⟩

theorem SameNodes.trans {l l' l'' : Lattice} (h : SameNodes l l') (h' : SameNodes l' l'') :
    SameNodes l l'' :=
  ⟨h'.key.trans h.key, fun pos => (h'.perm pos).trans (h.perm pos)⟩

theorem insertedOnce_setKey (key : Bytes) (bosId : Nat) : (setKey key bosId).InsertedOnce := by
  have hbegin : ∀ p, (setKey key bosId).beginNodes p = if p = key.length then [1] else [] := by
    intro p
    simp [setKey, newNode, Function.update_apply]
  refine ⟨placed_setKey key bosId, fun pos => ?_, fun p q v hp hq => ?_⟩
  · rw [hbegin]
    split <;> simp
  · rw [hbegin] at hp hq
    by_cases hpk : p = key.length
    · by_cases hqk : q = key.length
      · rw [hpk, hqk]
      · rw [if_neg hqk] at hq
        cases hq
    · rw [if_neg hpk] at hp
      cases hp

theorem InsertedOnce.insertNew {l : Lattice} {pos : Nat} {n : Node} (hl : l.InsertedOnce)
    (hpos : pos ≤ l.key.length) : (l.insertNew pos n).InsertedOnce := by
  have hmem : ∀ p v, v ∈ (l.insertNew pos n).beginNodes p ↔
      v ∈ l.beginNodes p ∨ (p = pos ∧ v = l.size) := by
    intro p v
    rw [insertNew_beginNodes]
    by_cases hp : p = pos
    · simp [hp]
    · simp [hp]
  have hfresh : ∀ p, l.size ∉ l.beginNodes p := fun p h => absurd (hl.lt_size p _ h) (lt_irrefl _)
  refine ⟨hl.toPlaced.insertNew hpos, fun p => ?_, fun p q v hp hq => ?_⟩
  · rw [insertNew_beginNodes]
    by_cases hp : p = pos
    · rw [if_pos hp]
      refine (hl.nodup p).append (List.nodup_singleton _) ?_
      rw [List.disjoint_singleton]
      exact hfresh p
    · rw [if_neg hp]
      exact hl.nodup p
  · rcases (hmem p v).mp hp with hp | ⟨hp, hv⟩
    · rcases (hmem q v).mp hq with hq | ⟨-, rfl⟩
      · exact hl.unique p q v hp hq
      · exact absurd hp (hfresh p)
    · rcases (hmem q v).mp hq with hq | ⟨hq, -⟩
      · exact absurd (hv ▸ hq) (hfresh q)
      · rw [hp, hq]

theorem nodesAt_insertNew {l : Lattice} {pos : Nat} {n : Node} (hl : l.Placed) (p : Nat) :
    (l.insertNew pos n).nodesAt p =
      l.nodesAt p ++ if p = pos then [(placed l.key (pos, n)).unlinked] else [] := by
  have hold : (l.beginNodes p).map (fun v => ((l.insertNew pos n).node v).unlinked) = l.nodesAt p := by
    refine List.map_congr_left fun v hv => ?_
    have := hl.lt_size p v hv
    rw [insertNew_node, if_neg (by omega)]
  rw [nodesAt, insertNew_beginNodes]
  by_cases hp : p = pos
  · rw [if_pos hp, if_pos hp, List.map_append, hold, List.map_singleton, insertNew_node, if_pos rfl]
    rfl
  · rw [if_neg hp, if_neg hp, hold, List.append_nil]

theorem insertedOnce_fill {key : Bytes} {bosId : Nat} {nodes : List (Nat × Node)}
    (hpos : ∀ p ∈ nodes, p.1 ≤ key.length) :
    (fill key bosId nodes).InsertedOnce ∧ ∀ pos, (fill key bosId nodes).nodesAt pos =
      (setKey key bosId).nodesAt pos ++
        (nodes.filter fun p => p.1 = pos).map fun p => (placed key p).unlinked := by
  induction nodes using List.reverseRecOn with
  | nil => exact ⟨insertedOnce_setKey key bosId, fun pos => (List.append_nil _).symm⟩
  | append_singleton nodes p ih =>
    have hkey := fill_key key bosId nodes
    obtain ⟨honce, hnodes⟩ := ih fun q hq => hpos q (List.mem_append_left _ hq)
    have hfill : fill key bosId (nodes ++ [p]) = (fill key bosId nodes).insertNew p.1 p.2 := by
      rw [fill, List.foldl_append]
      rfl
    rw [hfill]
    refine ⟨honce.insertNew (by rw [hkey]; exact hpos p (by simp)), fun pos => ?_⟩
    rw [nodesAt_insertNew honce.toPlaced, hnodes, hkey, List.filter_append, List.map_append,
      List.append_assoc]
    by_cases hp : p.1 = pos
    · rw [if_pos hp.symm, List.filter_cons_of_pos (by simpa using hp)]
      rfl
    · rw [if_neg fun h => hp h.symm, List.filter_cons_of_neg (by simpa using hp)]
      rfl

theorem sameNodes_fill {key : Bytes} {bosId : Nat} {nodes nodes' : List (Nat × Node)}
    (hpos : ∀ p ∈ nodes, p.1 ≤ key.length) (hperm : nodes'.Perm nodes) :
    SameNodes (fill key bosId nodes) (fill key bosId nodes') := by
  refine ⟨by rw [fill_key, fill_key], fun pos => ?_⟩
  rw [(insertedOnce_fill hpos).2,
    (insertedOnce_fill fun p hp => hpos p (hperm.mem_iff.mp hp)).2]
  exact ((hperm.filter _).map _).append_left _

def reorder (l : Lattice) (beginNodes : Nat → List Nat) : Lattice := { l with beginNodes := beginNodes }

section

variable {l : Lattice} {beginNodes : Nat → List Nat}
  (h : ∀ pos, (beginNodes pos).Perm (l.beginNodes pos))

include h

theorem sameNodes_reorder : SameNodes l (l.reorder beginNodes) :=
  ⟨rfl, fun pos => (h pos).map _⟩

theorem InsertedOnce.reorder (hl : l.InsertedOnce) : (l.reorder beginNodes).InsertedOnce := by
  have hmem : ∀ pos v, v ∈ (l.reorder beginNodes).beginNodes pos → v ∈ l.beginNodes pos :=
    fun pos v hv => (h pos).mem_iff.mp hv
  refine ⟨⟨?_, hl.end_lt_size, ?_, ?_, ?_, ?_⟩, ?_, ?_⟩
  · exact fun pos v hv => hl.lt_size pos v (hmem pos v hv)
  · exact fun pos v hv => hl.le_length pos v (hmem pos v hv)
  · exact fun pos v hv => hl.begins pos v (hmem pos v hv)
  · exact fun pos v hv => hl.ends pos v (hmem pos v hv)
  · exact fun pos v hv => hl.mem_endNodes pos v (hmem pos v hv)
  · exact fun pos => (h pos).nodup_iff.mpr (hl.nodup pos)
  · exact fun p q v hp hq => hl.unique p q v (hmem p v hp) (hmem q v hq)

end

end Lattice

section

variable (modules : GuardModules)

def penalizedNode (n : Node) : Node :=
  { n with wcost := n.wcost + getShortCompoundSplitPenalty modules n }

def penalizedCost (n : Node) (isPenalized : Bool) : Int :=
  n.wcost + if isPenalized then getShortCompoundSplitPenalty modules n else 0

def bestWholeCost (nodes : List Node) (endPos : Nat) : Int :=
  nodes.foldl (fun best n =>
    if n.endPos = endPos ∧ isShortWholeSpanCandidate modules n then min best n.wcost else best) kMaxCost

def isSplitLeft (l : Lattice) (a : Node) : Bool :=
  isOneKanaOneKanjiNode modules a && a.beginPos < a.endPos && a.endPos ≤ l.key.length

def isSplitRight (l : Lattice) (b : Node) : Bool :=
  isOneKanaOneKanjiNode modules b && b.beginPos < b.endPos && b.endPos == l.key.length

/-- A word for both letters competes with two adjoining words of some costs. -/
def isDear (l : Lattice) (a b : Node) (splitCost : Int) : Bool :=
  let best := bestWholeCost modules (l.nodesAt a.beginPos) b.endPos
  a.endPos == b.beginPos &&
    charsLen ((l.key.drop a.beginPos).take (b.endPos - a.beginPos)) == 2 &&
    best != kMaxCost && best - splitCost ≤ 2302

/-- The guard penalizes a pair of nodes, of which the one, the other or both may have been penalized
before. -/
def competes (l : Lattice) (a b : Node) (x y : Bool) : Bool :=
  isSplitLeft modules l a && isSplitRight modules l b &&
    isDear modules l a b (penalizedCost modules a x +
      modules.connector.getTransitionCost a.rid b.lid + penalizedCost modules b y)

def splitPass (start : Nat) (l : Lattice) : Pass Nat Nat where
  crit a b := competes modules l (l.node a) (l.node b)
  next a := (l.node a).endPos
  start := start

def Lattice.penalizing (l : Lattice) (marked : List Nat) : Lattice :=
  { l with node := fun v => if v ∈ marked then penalizedNode modules (l.node v) else l.node v }

end

section

variable {modules : GuardModules}

theorem isLength_of_isKanjiWord {n : Node} {isLength : Bool} (h : isKanjiWord modules n isLength = true) :
    isLength = true := by
  rw [isKanjiWord] at h
  split_ifs at h
  assumption

theorem not_isShortWholeSpanCandidate {n : Node} (h : isOneKanaOneKanjiNode modules n = true) :
    ¬isShortWholeSpanCandidate modules n = true := by
  intro h'
  have hone := isLength_of_isKanjiWord h
  have htwo := isLength_of_isKanjiWord h'
  simp only [Bool.and_eq_true, beq_iff_eq] at hone htwo
  omega

variable {l : Lattice} {marked : List Nat}

theorem penalizing_node (v : Nat) : (l.penalizing modules marked).node v =
    if v ∈ marked then penalizedNode modules (l.node v) else l.node v := rfl

theorem penalizing_wcost (v : Nat) : ((l.penalizing modules marked).node v).wcost =
    penalizedCost modules (l.node v) (decide (v ∈ marked)) := by
  rw [penalizing_node, penalizedCost]
  by_cases h : v ∈ marked
  · simp [h, penalizedNode]
  · simp [h]

theorem penalizing_node_eq (v : Nat) : (l.penalizing modules marked).node v =
    { l.node v with wcost := penalizedCost modules (l.node v) (decide (v ∈ marked)) } := by
  rw [penalizing_node, penalizedCost]
  by_cases h : v ∈ marked
  · simp [h, penalizedNode]
  · simp [h]

theorem penalizing_nil : l.penalizing modules [] = l := by
  rw [Lattice.penalizing]
  simp

theorem penalize_penalizing (v : Nat) :
    SplitGuard.penalize modules ⟨l.penalizing modules marked, marked⟩ v =
      ⟨l.penalizing modules (marked.insert v), marked.insert v⟩ := by
  rw [SplitGuard.penalize]
  by_cases h : v ∈ marked
  · rw [if_pos h, List.insert_of_mem h]
  · rw [if_neg h, List.insert_of_not_mem h]
    have hnode : Function.update (l.penalizing modules marked).node v
        (penalizedNode modules ((l.penalizing modules marked).node v)) =
        (l.penalizing modules (v :: marked)).node := by
      funext w
      rw [penalizing_node w]
      by_cases hw : w = v
      · rw [hw, Function.update_self, penalizing_node, if_neg h, if_pos List.mem_cons_self]
      · rw [Function.update_of_ne hw, penalizing_node]
        simp [hw]
    change SplitGuard.mk { l.penalizing modules marked with
      node := Function.update (l.penalizing modules marked).node v
        (penalizedNode modules ((l.penalizing modules marked).node v)) } (v :: marked) = _
    rw [hnode]
    rfl

theorem foldl_whole_eq {a b : Nat} (endPos : Nat) (xs : List Nat) (best : Int)
    (hmarked : ∀ v ∈ marked, isOneKanaOneKanjiNode modules (l.node v) = true)
    (ha : isOneKanaOneKanjiNode modules (l.node a) = true)
    (hb : isOneKanaOneKanjiNode modules (l.node b) = true) :
    xs.foldl (fun best whole =>
        if whole = a ∨ whole = b then best
        else if ((l.penalizing modules marked).node whole).endPos ≠ endPos then best
        else if ¬isShortWholeSpanCandidate modules ((l.penalizing modules marked).node whole) then best
        else min best ((l.penalizing modules marked).node whole).wcost) best =
      (xs.map fun v => (l.node v).unlinked).foldl (fun best n =>
        if n.endPos = endPos ∧ isShortWholeSpanCandidate modules n then min best n.wcost else best)
        best := by
  induction xs generalizing best with
  | nil => rfl
  | cons v xs ih =>
    rw [List.foldl_cons, List.map_cons, List.foldl_cons, ih]
    congr 1
    have hunlinked : isShortWholeSpanCandidate modules (l.node v).unlinked =
        isShortWholeSpanCandidate modules (l.node v) := rfl
    have hpenalizing : isShortWholeSpanCandidate modules ((l.penalizing modules marked).node v) =
        isShortWholeSpanCandidate modules (l.node v) := by
      rw [penalizing_node_eq]
      rfl
    have hend : ((l.penalizing modules marked).node v).endPos = (l.node v).endPos := by
      rw [penalizing_node_eq]
    rw [hunlinked, hpenalizing, hend, show (l.node v).unlinked.endPos = (l.node v).endPos by rfl,
      show (l.node v).unlinked.wcost = (l.node v).wcost by rfl]
    by_cases hshort : isShortWholeSpanCandidate modules (l.node v) = true
    · have hva : v ≠ a := by
        rintro rfl
        exact not_isShortWholeSpanCandidate ha hshort
      have hvb : v ≠ b := by
        rintro rfl
        exact not_isShortWholeSpanCandidate hb hshort
      have hv : v ∉ marked := fun h => not_isShortWholeSpanCandidate (hmarked v h) hshort
      rw [penalizing_node, if_neg hv]
      by_cases he : (l.node v).endPos = endPos
      · simp [hshort, hva, hvb, he]
      · simp [hva, hvb, he]
    · simp [hshort]

theorem hasCompetitive_penalizing {a b : Nat}
    (hmarked : ∀ v ∈ marked, isOneKanaOneKanjiNode modules (l.node v) = true)
    (ha : isOneKanaOneKanjiNode modules (l.node a) = true)
    (hb : isOneKanaOneKanjiNode modules (l.node b) = true) :
    hasCompetitiveShortWholeSpanCandidate modules (l.penalizing modules marked) a b =
      isDear modules l (l.node a) (l.node b)
        (penalizedCost modules (l.node a) (decide (a ∈ marked)) +
          modules.connector.getTransitionCost (l.node a).rid (l.node b).lid +
          penalizedCost modules (l.node b) (decide (b ∈ marked))) := by
  have hbest := foldl_whole_eq (l.node b).endPos (l.beginNodes (l.node a).beginPos) kMaxCost hmarked ha hb
  have hend : ∀ v, ((l.penalizing modules marked).node v).endPos = (l.node v).endPos := by
    intro v
    rw [penalizing_node_eq]
  have hbegin : ∀ v, ((l.penalizing modules marked).node v).beginPos = (l.node v).beginPos := by
    intro v
    rw [penalizing_node_eq]
  have hids : ∀ v, ((l.penalizing modules marked).node v).rid = (l.node v).rid ∧
      ((l.penalizing modules marked).node v).lid = (l.node v).lid := by
    intro v
    rw [penalizing_node_eq]
    exact ⟨rfl, rfl⟩
  rw [hasCompetitiveShortWholeSpanCandidate, isDear]
  simp only [hend, hbegin, (hids _).1, (hids _).2, penalizing_wcost] at hbest ⊢
  change (l.beginNodes (l.node a).beginPos).foldl _ _ =
    bestWholeCost modules (l.nodesAt (l.node a).beginPos) (l.node b).endPos at hbest
  rw [show (l.penalizing modules marked).beginNodes = l.beginNodes by rfl,
    show (l.penalizing modules marked).key = l.key by rfl, hbest]
  generalize bestWholeCost modules (l.nodesAt (l.node a).beginPos) (l.node b).endPos = best
  generalize charsLen _ = len
  by_cases hadjoin : (l.node a).endPos = (l.node b).beginPos
  · by_cases hlen : len = 2
    · by_cases hnone : best = kMaxCost
      · simp [hadjoin, hlen, hnone]
      · simp [hadjoin, hlen, hnone]
    · simp [hadjoin, hlen]
  · simp [hadjoin]

theorem right_penalizing (start : Nat) {a : Nat} (b : Nat)
    (hmarked : ∀ v ∈ marked, isOneKanaOneKanjiNode modules (l.node v) = true)
    (ha : isSplitLeft modules l (l.node a) = true) :
    SplitGuard.right modules a ⟨l.penalizing modules marked, marked⟩ b =
      ⟨l.penalizing modules (visit (splitPass modules start l) marked (a, b)),
        visit (splitPass modules start l) marked (a, b)⟩ := by
  have hone : isOneKanaOneKanjiNode modules ((l.penalizing modules marked).node b) =
      isOneKanaOneKanjiNode modules (l.node b) := by
    rw [penalizing_node_eq]
    rfl
  have hend : ((l.penalizing modules marked).node b).endPos = (l.node b).endPos := by
    rw [penalizing_node_eq]
  have hbegin : ((l.penalizing modules marked).node b).beginPos = (l.node b).beginPos := by
    rw [penalizing_node_eq]
  have haOne : isOneKanaOneKanjiNode modules (l.node a) = true := by
    rw [isSplitLeft, Bool.and_eq_true, Bool.and_eq_true] at ha
    exact ha.1.1
  have hkey : (l.penalizing modules marked).key = l.key := rfl
  rw [SplitGuard.right]
  dsimp only
  rw [hone, hend, hbegin, hkey]
  by_cases hright : isSplitRight modules l (l.node b) = true
  · have hright' := hright
    rw [isSplitRight, Bool.and_eq_true, Bool.and_eq_true, decide_eq_true_eq, beq_iff_eq] at hright'
    obtain ⟨⟨hbOne, hlt⟩, hlast⟩ := hright'
    rw [if_neg (by simpa using hbOne), if_neg (by omega), if_neg (by omega),
      hasCompetitive_penalizing hmarked haOne hbOne]
    have hcrit : (splitPass modules start l).crit a b (decide (a ∈ marked)) (decide (b ∈ marked)) =
        isDear modules l (l.node a) (l.node b)
          (penalizedCost modules (l.node a) (decide (a ∈ marked)) +
            modules.connector.getTransitionCost (l.node a).rid (l.node b).lid +
            penalizedCost modules (l.node b) (decide (b ∈ marked))) := by
      simp only [splitPass, competes, ha, hright, Bool.true_and]
    rw [← hcrit]
    by_cases h : (splitPass modules start l).crit a b (decide (a ∈ marked)) (decide (b ∈ marked)) = true
    · rw [if_neg (by simpa using h), penalize_penalizing, penalize_penalizing, visit, if_pos h]
    · rw [if_pos h, visit, if_neg h]
  · have hvisit : visit (splitPass modules start l) marked (a, b) = marked := by
      rw [visit, if_neg]
      simp only [splitPass, competes, Bool.and_eq_true]
      rintro ⟨⟨-, h⟩, -⟩
      exact hright h
    rw [hvisit]
    rw [isSplitRight, Bool.and_eq_true, Bool.and_eq_true, decide_eq_true_eq, beq_iff_eq] at hright
    by_cases hbOne : isOneKanaOneKanjiNode modules (l.node b) = true
    · rw [if_neg (by simpa using hbOne)]
      by_cases hlt : (l.node b).endPos ≤ (l.node b).beginPos ∨ l.key.length < (l.node b).endPos
      · rw [if_pos hlt]
      · rw [if_neg hlt, if_pos fun h => hright ⟨⟨hbOne, by omega⟩, h⟩]
    · rw [if_pos hbOne]

theorem isOneKana_visit {start : Nat} {pair : Nat × Nat}
    (hmarked : ∀ v ∈ marked, isOneKanaOneKanjiNode modules (l.node v) = true) :
    ∀ v ∈ visit (splitPass modules start l) marked pair,
      isOneKanaOneKanjiNode modules (l.node v) = true := by
  intro v hv
  rcases mem_visit hv with h | ⟨hcrit, h⟩
  · exact hmarked v h
  · simp only [splitPass, competes, isSplitLeft, isSplitRight, Bool.and_eq_true] at hcrit
    rcases h with rfl | rfl
    · exact hcrit.1.1.1.1
    · exact hcrit.1.2.1.1

theorem isOneKana_foldl_visit {start : Nat} (ps : List (Nat × Nat))
    (hmarked : ∀ v ∈ marked, isOneKanaOneKanjiNode modules (l.node v) = true) :
    ∀ v ∈ ps.foldl (visit (splitPass modules start l)) marked,
      isOneKanaOneKanjiNode modules (l.node v) = true := by
  induction ps generalizing marked with
  | nil => exact hmarked
  | cons p ps ih => exact ih (isOneKana_visit hmarked)

theorem foldl_right_penalizing (start : Nat) {a : Nat} (bs : List Nat)
    (hmarked : ∀ v ∈ marked, isOneKanaOneKanjiNode modules (l.node v) = true)
    (ha : isSplitLeft modules l (l.node a) = true) :
    bs.foldl (SplitGuard.right modules a) ⟨l.penalizing modules marked, marked⟩ =
      ⟨l.penalizing modules ((bs.map fun b => (a, b)).foldl (visit (splitPass modules start l)) marked),
        (bs.map fun b => (a, b)).foldl (visit (splitPass modules start l)) marked⟩ := by
  induction bs generalizing marked with
  | nil => rfl
  | cons b bs ih =>
    rw [List.foldl_cons, right_penalizing start b hmarked ha, ih (isOneKana_visit hmarked)]
    rfl

theorem left_penalizing (start a : Nat)
    (hmarked : ∀ v ∈ marked, isOneKanaOneKanjiNode modules (l.node v) = true) :
    SplitGuard.left modules ⟨l.penalizing modules marked, marked⟩ a =
      ⟨l.penalizing modules
          ((row (splitPass modules start l) l.beginNodes a).foldl (visit (splitPass modules start l)) marked),
        (row (splitPass modules start l) l.beginNodes a).foldl (visit (splitPass modules start l)) marked⟩ := by
  have hone : isOneKanaOneKanjiNode modules ((l.penalizing modules marked).node a) =
      isOneKanaOneKanjiNode modules (l.node a) := by
    rw [penalizing_node_eq]
    rfl
  have hend : ((l.penalizing modules marked).node a).endPos = (l.node a).endPos := by
    rw [penalizing_node_eq]
  have hbegin : ((l.penalizing modules marked).node a).beginPos = (l.node a).beginPos := by
    rw [penalizing_node_eq]
  have hkey : (l.penalizing modules marked).key = l.key := rfl
  have hlist : (l.penalizing modules marked).beginNodes = l.beginNodes := rfl
  rw [SplitGuard.left]
  dsimp only
  rw [hone, hend, hbegin, hkey, hlist]
  by_cases ha : isSplitLeft modules l (l.node a) = true
  · have ha' := ha
    rw [isSplitLeft, Bool.and_eq_true, Bool.and_eq_true, decide_eq_true_eq, decide_eq_true_eq] at ha'
    obtain ⟨⟨haOne, hlt⟩, hle⟩ := ha'
    rw [if_neg (by simpa using haOne), if_neg (by omega),
      foldl_right_penalizing start _ hmarked ha]
    rfl
  · have hrow : (row (splitPass modules start l) l.beginNodes a).foldl
        (visit (splitPass modules start l)) marked = marked := by
      refine foldl_visit_of_not fun p hp => ?_
      obtain ⟨b, -, rfl⟩ := List.mem_map.mp hp
      simp only [splitPass, competes, Bool.and_eq_true]
      rintro ⟨⟨h, -⟩, -⟩
      exact ha h
    rw [hrow]
    rw [isSplitLeft, Bool.and_eq_true, Bool.and_eq_true, decide_eq_true_eq, decide_eq_true_eq] at ha
    by_cases haOne : isOneKanaOneKanjiNode modules (l.node a) = true
    · rw [if_neg (by simpa using haOne), if_pos]
      by_contra hpos
      exact ha ⟨⟨haOne, by omega⟩, by omega⟩
    · rw [if_pos haOne]

theorem foldl_left_penalizing (start : Nat) (as : List Nat)
    (hmarked : ∀ v ∈ marked, isOneKanaOneKanjiNode modules (l.node v) = true) :
    as.foldl (SplitGuard.left modules) ⟨l.penalizing modules marked, marked⟩ =
      ⟨l.penalizing modules ((as.flatMap (row (splitPass modules start l) l.beginNodes)).foldl
          (visit (splitPass modules start l)) marked),
        (as.flatMap (row (splitPass modules start l) l.beginNodes)).foldl
          (visit (splitPass modules start l)) marked⟩ := by
  induction as generalizing marked with
  | nil => rfl
  | cons a as ih =>
    rw [List.foldl_cons, left_penalizing start a hmarked,
      ih (isOneKana_foldl_visit _ hmarked), List.flatMap_cons, List.foldl_append]

def guardApplies (historyKey : Bytes) (l : Lattice) : Bool :=
  historyKey.length < l.key.length && isTwoHiraganaCharSpan (l.key.drop historyKey.length)

theorem applyShortCompoundSplitGuard_eq (historyKey : Bytes) (l : Lattice) :
    applyShortCompoundSplitGuard modules historyKey l =
      if guardApplies historyKey l then
        l.penalizing modules (marks (splitPass modules historyKey.length l) l.beginNodes)
      else l := by
  rw [applyShortCompoundSplitGuard, guardApplies]
  by_cases hlen : l.key.length ≤ historyKey.length
  · have hnot : ¬historyKey.length < l.key.length := by omega
    simp [hlen, hnot]
  · have hlt : historyKey.length < l.key.length := by omega
    by_cases htwo : isTwoHiraganaCharSpan (l.key.drop historyKey.length) = true
    · have hfold := @foldl_left_penalizing modules l [] historyKey.length
        (l.beginNodes historyKey.length) fun v h => absurd h List.not_mem_nil
      rw [penalizing_nil] at hfold
      simp only [hlen, hlt, htwo, if_false, if_true, not_true, decide_true, Bool.and_self]
      rw [hfold]
      rfl
    · simp [hlen, htwo]

end

section order

variable (modules : GuardModules) (start : Nat) (l : Lattice)

/-- A node competes as the left one of a pair without penalties. -/
def StartsLeft (a : Node) : Prop := ∃ b ∈ l.nodesAt a.endPos, competes modules l a b false false

/-- A node competes as the right one of a pair without penalties. -/
def StartsRight (pos : Nat) (b : Node) : Prop :=
  ∃ a ∈ l.nodesAt start, a.endPos = pos ∧ competes modules l a b false false

/-- A pair that competes by the penalty of one of its nodes is one of nodes that have a penalty anyway. -/
def SplitsSettled : Prop :=
  ∀ a ∈ l.nodesAt start, ∀ b ∈ l.nodesAt a.endPos,
    (StartsLeft modules l a → competes modules l a b true false → StartsRight modules start l a.endPos b) ∧
    (StartsRight modules start l a.endPos b → competes modules l a b false true → StartsLeft modules l a)

variable {modules start l}

theorem penalizedCost_mono {n : Node} {x x' : Bool} (h : x → x') :
    penalizedCost modules n x ≤ penalizedCost modules n x' := by
  have := getShortCompoundSplitPenalty_pos modules n
  cases x <;> cases x' <;> simp_all [penalizedCost]
  omega

theorem competes_mono {a b : Node} {x y x' y' : Bool} (hx : x → x') (hy : y → y')
    (h : competes modules l a b x y = true) : competes modules l a b x' y' = true := by
  have hleft := @penalizedCost_mono modules a x x' hx
  have hright := @penalizedCost_mono modules b y y' hy
  simp only [competes, isDear, Bool.and_eq_true, decide_eq_true_eq] at h ⊢
  exact ⟨h.1, h.2.1, by omega⟩

theorem Lattice.InsertedOnce.regular (hl : l.InsertedOnce) :
    Regular (splitPass modules start l) l.beginNodes := by
  refine ⟨fun a b x y x' y' hx hy h => competes_mono hx hy h, ?_, fun i j v => hl.unique i j v,
    hl.nodup⟩
  intro a b x y ha hcrit hnext
  simp only [splitPass, competes, isSplitLeft, Bool.and_eq_true, decide_eq_true_eq] at hcrit
  have hbegin := hl.begins start a ha
  have hend := hl.ends start a ha
  change (l.node a).endPos = start at hnext
  have hlt : start < 2 ^ 16 := by
    rw [← hnext, hend, Lattice.toPos]
    exact Nat.mod_lt _ (by decide)
  rw [Lattice.toPos_of_lt hlt] at hbegin
  omega

theorem initial_iff_startsLeft (hl : l.InsertedOnce) {v : Nat} (hv : v ∈ l.beginNodes start) :
    Initial (splitPass modules start l) l.beginNodes v ↔ StartsLeft modules l (l.node v).unlinked := by
  constructor
  · rintro ⟨⟨a, b⟩, hmem, hcrit, h⟩
    obtain ⟨ha, hb⟩ := mem_pairs.mp hmem
    have hva : v = a := h.resolve_right fun h => by
      subst h
      exact hl.regular.not_first hmem hcrit hv
    subst hva
    exact ⟨(l.node b).unlinked, List.mem_map.mpr ⟨b, hb, rfl⟩, hcrit⟩
  · rintro ⟨n, hn, hcrit⟩
    obtain ⟨b, hb, rfl⟩ := List.mem_map.mp hn
    exact ⟨(v, b), mem_pairs.mpr ⟨hv, hb⟩, hcrit, Or.inl rfl⟩

theorem initial_iff_startsRight (hl : l.InsertedOnce) {pos v : Nat} (hpos : pos ≠ start)
    (hv : v ∈ l.beginNodes pos) :
    Initial (splitPass modules start l) l.beginNodes v ↔
      StartsRight modules start l pos (l.node v).unlinked := by
  constructor
  · rintro ⟨⟨a, b⟩, hmem, hcrit, h⟩
    obtain ⟨ha, hb⟩ := mem_pairs.mp hmem
    have hvb : v = b := h.resolve_left fun h => by
      subst h
      exact hpos (hl.unique _ _ _ hv ha)
    subst hvb
    exact ⟨(l.node a).unlinked, List.mem_map.mpr ⟨a, ha, rfl⟩, hl.unique _ _ _ hb hv, hcrit⟩
  · rintro ⟨n, hn, hend, hcrit⟩
    obtain ⟨a, ha, rfl⟩ := List.mem_map.mp hn
    refine ⟨(a, v), mem_pairs.mpr ⟨ha, ?_⟩, hcrit, Or.inr rfl⟩
    change v ∈ l.beginNodes (l.node a).endPos
    rwa [show (l.node a).endPos = pos from hend]

theorem settled_iff (hl : l.InsertedOnce) :
    Settled (splitPass modules start l) l.beginNodes ↔ SplitsSettled modules start l := by
  have hregular := @Lattice.InsertedOnce.regular modules start l hl
  constructor
  · intro h n hn m hm
    obtain ⟨a, ha, rfl⟩ := List.mem_map.mp hn
    obtain ⟨b, hb, rfl⟩ := List.mem_map.mp hm
    have hmem : (a, b) ∈ pairs (splitPass modules start l) l.beginNodes := mem_pairs.mpr ⟨ha, hb⟩
    constructor
    · intro hleft hcrit
      have hne : (l.node a).endPos ≠ start := hregular.leaves a b _ _ ha hcrit
      have hboth := h (a, b) hmem true false (fun _ => (initial_iff_startsLeft hl ha).mpr hleft)
        (fun h => absurd h Bool.false_ne_true) hcrit
      exact (initial_iff_startsRight hl hne hb).mp hboth.2
    · intro hright hcrit
      have hne : (l.node a).endPos ≠ start := hregular.leaves a b _ _ ha hcrit
      have hboth := h (a, b) hmem false true (fun h => absurd h Bool.false_ne_true)
        (fun _ => (initial_iff_startsRight hl hne hb).mpr hright) hcrit
      exact (initial_iff_startsLeft hl ha).mp hboth.1
  · rintro h ⟨a, b⟩ hmem x y hx hy hcrit
    obtain ⟨ha, hb⟩ := mem_pairs.mp hmem
    have hne : (l.node a).endPos ≠ start := hregular.leaves a b _ _ ha hcrit
    have hpair := h _ (List.mem_map.mpr ⟨a, ha, rfl⟩) _ (List.mem_map.mpr ⟨b, hb, rfl⟩)
    have hleft := @initial_iff_startsLeft modules start l hl a ha
    have hright := @initial_iff_startsRight modules start l hl _ b hne hb
    by_cases hinitA : Initial (splitPass modules start l) l.beginNodes a
    · by_cases hinitB : Initial (splitPass modules start l) l.beginNodes b
      · exact ⟨hinitA, hinitB⟩
      · have hcrit' : competes modules l (l.node a) (l.node b) true false = true :=
          competes_mono (fun _ => rfl) (fun h => absurd (hy h) hinitB) hcrit
        exact absurd (hright.mpr (hpair.1 (hleft.mp hinitA) hcrit')) hinitB
    · by_cases hinitB : Initial (splitPass modules start l) l.beginNodes b
      · have hcrit' : competes modules l (l.node a) (l.node b) false true = true :=
          competes_mono (fun h => absurd (hx h) hinitA) (fun _ => rfl) hcrit
        exact absurd (hleft.mpr (hpair.2 (hright.mp hinitB) hcrit')) hinitA
      · have hcrit' : competes modules l (l.node a) (l.node b) false false = true :=
          competes_mono (fun h => absurd (hx h) hinitA) (fun h => absurd (hy h) hinitB) hcrit
        exact ⟨⟨(a, b), hmem, hcrit', Or.inl rfl⟩, ⟨(a, b), hmem, hcrit', Or.inr rfl⟩⟩

end order

section same

variable {modules : GuardModules} {start : Nat} {l l' : Lattice}

theorem bestWholeCost_perm {xs ys : List Node} (h : xs.Perm ys) (endPos : Nat) :
    bestWholeCost modules xs endPos = bestWholeCost modules ys endPos := by
  refine h.foldl_eq' (fun n _ m _ best => ?_) _
  split_ifs
  · omega
  · rfl
  · rfl
  · rfl

theorem SameNodes.competes_eq (h : Lattice.SameNodes l l') : competes modules l' = competes modules l := by
  funext a b x y
  rw [competes, competes, isDear, isDear, isSplitLeft, isSplitLeft, isSplitRight, isSplitRight, h.key,
    bestWholeCost_perm (h.perm a.beginPos)]

theorem SameNodes.startsLeft_iff (h : Lattice.SameNodes l l') (a : Node) :
    StartsLeft modules l' a ↔ StartsLeft modules l a := by
  rw [StartsLeft, StartsLeft, SameNodes.competes_eq h]
  simp only [(h.perm _).mem_iff]

theorem SameNodes.startsRight_iff (h : Lattice.SameNodes l l') (pos : Nat) (b : Node) :
    StartsRight modules start l' pos b ↔ StartsRight modules start l pos b := by
  rw [StartsRight, StartsRight, SameNodes.competes_eq h]
  simp only [(h.perm _).mem_iff]

theorem SameNodes.splitsSettled_iff (h : Lattice.SameNodes l l') :
    SplitsSettled modules start l' ↔ SplitsSettled modules start l := by
  simp only [SplitsSettled, (h.perm _).mem_iff, SameNodes.startsLeft_iff h, SameNodes.startsRight_iff h,
    SameNodes.competes_eq h]

open Classical in
/-- What a settled guard makes of a node at a position. -/
noncomputable def settledNode (modules : GuardModules) (start : Nat) (l : Lattice) (pos : Nat) (n : Node) :
    Node :=
  if (pos = start ∧ StartsLeft modules l n) ∨ (pos ≠ start ∧ StartsRight modules start l pos n) then
    penalizedNode modules n
  else n

theorem penalizing_nodesAt (hl : l.InsertedOnce) (hs : SplitsSettled modules start l) (pos : Nat) :
    (l.penalizing modules (marks (splitPass modules start l) l.beginNodes)).nodesAt pos =
      (l.nodesAt pos).map (settledNode modules start l pos) := by
  rw [Lattice.nodesAt, Lattice.nodesAt, List.map_map]
  refine List.map_congr_left fun v hv => ?_
  have hmarks := (hl.regular).mem_marks_iff ((@settled_iff modules start l hl).mpr hs) v
  rw [penalizing_node, Function.comp_apply, settledNode]
  have hiff : v ∈ marks (splitPass modules start l) l.beginNodes ↔
      (pos = start ∧ StartsLeft modules l (l.node v).unlinked) ∨
        (pos ≠ start ∧ StartsRight modules start l pos (l.node v).unlinked) := by
    rw [hmarks]
    by_cases hpos : pos = start
    · rw [initial_iff_startsLeft hl (hpos ▸ hv)]
      simp [hpos]
    · rw [initial_iff_startsRight hl hpos hv]
      simp [hpos]
  by_cases h : v ∈ marks (splitPass modules start l) l.beginNodes
  · rw [if_pos h, if_pos (hiff.mp h)]
    rfl
  · rw [if_neg h, if_neg fun h' => h (hiff.mpr h')]

theorem not_sameNodes_of_marks {nodes nodes' : Nat → List Nat} {marked marked' : List Nat}
    (hperm : ∀ i, (nodes i).Perm (l.beginNodes i)) (hperm' : ∀ i, (nodes' i).Perm (l.beginNodes i))
    (hsub : marked ⊆ marked') {i v : Nat} (hv : v ∈ l.beginNodes i) (hmem : v ∈ marked')
    (hnot : v ∉ marked) :
    ¬Lattice.SameNodes ((l.reorder nodes).penalizing modules marked)
      ((l.reorder nodes').penalizing modules marked') := by
  intro h
  have hcost : ∀ (ns : Nat → List Nat) (ms : List Nat), (∀ i, (ns i).Perm (l.beginNodes i)) →
      ((((l.reorder ns).penalizing modules ms).nodesAt i).map Node.wcost).sum =
        ((l.beginNodes i).map fun v => penalizedCost modules (l.node v) (decide (v ∈ ms))).sum := by
    intro ns ms hns
    rw [Lattice.nodesAt, List.map_map]
    refine ((hns i).map _).sum_eq.trans (congrArg List.sum (List.map_congr_left fun w _ => ?_))
    exact penalizing_wcost w
  have heq := ((h.perm i).map Node.wcost).sum_eq
  rw [hcost nodes' marked' hperm', hcost nodes marked hperm] at heq
  refine absurd heq (ne_of_gt (List.sum_lt_sum _ _ ?_ ⟨v, hv, ?_⟩))
  · exact fun w _ => penalizedCost_mono fun hw => by simpa using hsub (of_decide_eq_true hw)
  · have := getShortCompoundSplitPenalty_pos modules (l.node v)
    simpa [penalizedCost, hmem, hnot] using this

end same

/-- The costs after the guard do not depend on the order of the nodes if and only if no pair that did not
compete comes to compete by the penalty of the one of its nodes that has one, where the other has none. -/
theorem applyShortCompoundSplitGuard_sameNodes_iff (modules : GuardModules) (historyKey : Bytes)
    {l : Lattice} (hl : l.InsertedOnce) :
    (∀ l' : Lattice, l'.InsertedOnce → l.SameNodes l' →
      (applyShortCompoundSplitGuard modules historyKey l).SameNodes
        (applyShortCompoundSplitGuard modules historyKey l')) ↔
      (guardApplies historyKey l → SplitsSettled modules historyKey.length l) := by
  have happlies : ∀ l' : Lattice, l.SameNodes l' → guardApplies historyKey l' = guardApplies historyKey l := by
    intro l' h
    rw [guardApplies, guardApplies, h.key]
  constructor
  · intro hsame happly
    by_contra hnot
    rw [← settled_iff hl] at hnot
    obtain ⟨least, hleast, hmarksLeast⟩ :=
      (@Lattice.InsertedOnce.regular modules historyKey.length l hl).exists_least
    obtain ⟨more, hmore, i, v, hv, hmem, hinit⟩ := hl.regular.exists_more hnot
    have hguard : ∀ nodes : Nat → List Nat, (∀ i, (nodes i).Perm (l.beginNodes i)) →
        (applyShortCompoundSplitGuard modules historyKey l).SameNodes
          ((l.reorder nodes).penalizing modules
            (marks (splitPass modules historyKey.length l) nodes)) := by
      intro nodes hnodes
      have h := hsame _ (hl.reorder hnodes) (Lattice.sameNodes_reorder hnodes)
      rw [applyShortCompoundSplitGuard_eq historyKey (l.reorder nodes),
        happlies _ (Lattice.sameNodes_reorder hnodes), if_pos happly] at h
      have hpass : splitPass modules historyKey.length (l.reorder nodes) =
          splitPass modules historyKey.length l := by
        rw [splitPass, splitPass, SameNodes.competes_eq (Lattice.sameNodes_reorder hnodes)]
        rfl
      rw [hpass] at h
      exact h
    refine not_sameNodes_of_marks hleast hmore (fun w hw => ?_) hv hmem
      (fun h => hinit ((hmarksLeast v).mp h)) ((hguard least hleast).symm.trans (hguard more hmore))
    exact (hl.regular.perm hmore).initial_mem_marks
      ((initial_perm hmore w).mpr ((hmarksLeast w).mp hw))
  · intro hsettled l' hl' h
    rw [applyShortCompoundSplitGuard_eq, applyShortCompoundSplitGuard_eq, happlies l' h]
    by_cases happly : guardApplies historyKey l = true
    · rw [if_pos happly, if_pos happly]
      have hs := hsettled happly
      have hs' := (SameNodes.splitsSettled_iff h).mpr hs
      refine ⟨h.key, fun pos => ?_⟩
      rw [penalizing_nodesAt hl' hs', penalizing_nodesAt hl hs]
      have hnode : settledNode modules historyKey.length l' pos =
          settledNode modules historyKey.length l pos := by
        funext n
        rw [settledNode, settledNode, SameNodes.startsLeft_iff h, SameNodes.startsRight_iff h]
      rw [hnode]
      exact (h.perm pos).map _
    · rw [if_neg happly, if_neg happly]
      exact h

section niji

/-- A connector without costs, and no word of a special kind. -/
def plainGuardModules : GuardModules where
  connector := zeroConnector
  isUniqueNoun _ := false
  isNumber _ := false
  isKanjiNumber _ := false
  isCounterSuffixWord _ := false

/-- "にじ" with "虹" for all of it and "二" for its first letter, and what stands for its second. -/
def niji (seconds : List (Nat × Node)) : Lattice :=
  Lattice.fill [0xe3, 0x81, 0xab, 0xe3, 0x81, 0x98] 0
    ([(0, { key := [0xe3, 0x81, 0xab, 0xe3, 0x81, 0x98], value := [0xe8, 0x99, 0xb9], wcost := 10000 }),
      (0, { key := [0xe3, 0x81, 0xab], value := [0xe4, 0xba, 0x8c], wcost := 3000 })] ++ seconds)

def ji : Nat × Node := (3, { key := [0xe3, 0x81, 0x98], value := [0xe6, 0x99, 0x82], wcost := 5000 })

def aza : Nat × Node := (3, { key := [0xe3, 0x81, 0x98], value := [0xe5, 0xad, 0x97], wcost := 4000 })

theorem insertedOnce_niji {seconds : List (Nat × Node)} (h : ∀ p ∈ seconds, p.1 = 3) :
    (niji seconds).InsertedOnce := by
  refine (Lattice.insertedOnce_fill fun p hp => ?_).1
  rcases List.mem_append.mp hp with hp | hp
  · simp only [List.mem_cons, List.not_mem_nil, or_false] at hp
    rcases hp with rfl | rfl <;> simp
  · rw [h p hp]
    simp

def dearAza : Nat × Node := (3, { aza.2 with wcost := 5000 })

/-- With both words competing by themselves their order says nothing. -/
theorem applyShortCompoundSplitGuard_dearAza :
    (applyShortCompoundSplitGuard plainGuardModules [] (niji [ji, dearAza])).SameNodes
      (applyShortCompoundSplitGuard plainGuardModules [] (niji [dearAza, ji])) := by
  refine (applyShortCompoundSplitGuard_sameNodes_iff plainGuardModules []
    (insertedOnce_niji (by decide))).mpr (fun _ => ?_) _ (insertedOnce_niji (by decide))
    (Lattice.sameNodes_fill (by decide) (List.Perm.append_left _ (List.Perm.swap _ _ _)))
  unfold SplitsSettled StartsLeft StartsRight
  decide

/-- After "時" the word "字" competes by the penalty of "二"; before it, it does not. -/
theorem not_applyShortCompoundSplitGuard_sameNodes :
    (niji [ji, aza]).InsertedOnce ∧ (niji [aza, ji]).InsertedOnce ∧
      (niji [ji, aza]).SameNodes (niji [aza, ji]) ∧
      ¬(applyShortCompoundSplitGuard plainGuardModules [] (niji [ji, aza])).SameNodes
        (applyShortCompoundSplitGuard plainGuardModules [] (niji [aza, ji])) := by
  refine ⟨insertedOnce_niji (by decide), insertedOnce_niji (by decide), ?_, fun h => ?_⟩
  · refine Lattice.sameNodes_fill (by decide) (List.Perm.append_left _ (List.Perm.swap _ _ _))
  · have hcosts := ((h.perm 3).map Node.wcost).sum_eq
    exact absurd hcosts (by decide)

end niji

end Mozkey.Converter
