import Mozkey.Lib.Relaxation
import Mozkey.Converter.Segments

/-! `ImmutableConverter::Viterbi`: the cheapest node sequence from BOS to EOS under the boundaries of
the segments and the constrained nodes. -/

namespace Mozkey.Converter

open Lib

/-- `CachingConnector`: the costs before one left id.  `-1` marks an empty entry. -/
structure CachingConnector where
  cacheLid : Nat
  cache : Nat → Int

namespace CachingConnector

def kCacheSize : Nat := 2048

/-- The source does not initialise `cache_`, so `uninit` is arbitrary. -/
def new (uninit : Nat → Int) : CachingConnector := ⟨0xffff, uninit⟩

def resetCacheIfNecessary (conn : CachingConnector) (rnodeLid : Nat) : CachingConnector :=
  if conn.cacheLid ≠ rnodeLid then ⟨rnodeLid, fun _ => -1⟩ else conn

def getTransitionCost (connector : Connector) (conn : CachingConnector) (lnodeRid rnodeLid : Nat) :
    Int × CachingConnector :=
  if lnodeRid ≥ kCacheSize then (connector.getTransitionCost lnodeRid rnodeLid, conn)
  else if conn.cache lnodeRid ≠ -1 then (conn.cache lnodeRid, conn)
  else
    let cost := connector.getTransitionCost lnodeRid rnodeLid
    (cost, { conn with cache := Function.update conn.cache lnodeRid cost })

end CachingConnector

def kVeryBigCost : Int := 536870911

namespace Lattice

def setPrev (l : Lattice) (v : Nat) (prev : Option Nat) : Lattice :=
  { l with node := Function.update l.node v { l.node v with prev := prev } }

def setPrevCost (l : Lattice) (v : Nat) (prev : Option Nat) (cost : Int) : Lattice :=
  { l with node := Function.update l.node v { l.node v with prev := prev, cost := cost } }

def setNext (l : Lattice) (v : Nat) (next : Option Nat) : Lattice :=
  { l with node := Function.update l.node v { l.node v with next := next } }

end Lattice

section

variable (connector : Connector)

/-- The loop over the left nodes: the best cost before `rnode`, and the left node it comes from. -/
def bestLeft (l : Lattice) (rnodeLid : Nat) (lnodes : List Nat) (conn : CachingConnector) :
    (Int × Option Nat) × CachingConnector :=
  lnodes.foldl
    (fun ((bestCost, bestNode), conn) lnode =>
      if (l.node lnode).prev = none then ((bestCost, bestNode), conn)
      else
        let (transition, conn) := conn.getTransitionCost connector (l.node lnode).rid rnodeLid
        let cost := (l.node lnode).cost + transition
        if cost < bestCost then ((cost, some lnode), conn) else ((bestCost, bestNode), conn))
    ((kVeryBigCost, none), conn)

def viterbiNode (pos rightBoundary : Nat) (l : Lattice) (conn : CachingConnector) (rnode : Nat) :
    Lattice × CachingConnector :=
  if (l.node rnode).endPos > rightBoundary then (l.setPrev rnode none, conn)
  else
    let conn := conn.resetCacheIfNecessary (l.node rnode).lid
    match (l.node rnode).constrainedPrev with
    | some prev =>
      if (l.node prev).prev = none then (l.setPrev rnode none, conn)
      else
        let (transition, conn) := conn.getTransitionCost connector (l.node prev).rid (l.node rnode).lid
        (l.setPrevCost rnode (some prev) ((l.node prev).cost + (l.node rnode).wcost + transition), conn)
    | none =>
      let ((bestCost, bestNode), conn) :=
        bestLeft connector l (l.node rnode).lid (l.endNodes pos) conn
      (l.setPrevCost rnode bestNode (bestCost + (l.node rnode).wcost), conn)

def viterbiInternal (uninit : Nat → Int) (pos rightBoundary : Nat) (l : Lattice) : Lattice :=
  ((l.beginNodes pos).foldl
    (fun (l, conn) rnode => viterbiNode connector pos rightBoundary l conn rnode)
    (l, CachingConnector.new uninit)).1

def processBOS (rightBoundary : Nat) (l : Lattice) : Lattice :=
  (l.beginNodes 0).foldl
    (fun l rnode =>
      if (l.node rnode).endPos > rightBoundary then l
      else
        let bos := l.node l.bosNode
        l.setPrevCost rnode (some l.bosNode)
          (bos.cost + connector.getTransitionCost bos.rid (l.node rnode).lid +
            (l.node rnode).wcost))
    l

/-- The positions from `begin` below `rightBoundary`, in a segment that ends there. -/
def viterbiRange (uninit : Nat → Nat → Int) (begin rightBoundary : Nat) (l : Lattice) : Lattice :=
  (List.range' begin (rightBoundary - begin)).foldl
    (fun l pos => viterbiInternal connector (uninit pos) pos rightBoundary l) l

def viterbiSegments (uninit : Nat → Nat → Int) : Nat → List Segment → Lattice → Lattice
  | _, [], l => l
  | leftBoundary, segment :: rest, l =>
    let rightBoundary := leftBoundary + segment.key.length
    viterbiSegments uninit rightBoundary rest
      (viterbiRange connector uninit leftBoundary rightBoundary l)

/-- The last block of `Viterbi`, which asks the connector and not the cache. -/
def processEOS (l : Lattice) : Lattice :=
  let eos := l.eosNode
  let (bestCost, bestNode) := (l.endNodes l.key.length).foldl
    (fun ((bestCost, bestNode) : Int × Option Nat) lnode =>
      if (l.node lnode).prev = none then (bestCost, bestNode)
      else
        let cost := (l.node lnode).cost +
          connector.getTransitionCost (l.node lnode).rid (l.node eos).lid
        if cost < bestCost then (cost, some lnode) else (bestCost, bestNode))
    (kVeryBigCost, none)
  l.setPrevCost eos bestNode (bestCost + (l.node eos).wcost)

/-- The walk back from `node`, which links the nodes forwards.  It gives the last value of `prev`,
or `none` for a walk of more than `fuel` steps. -/
def traverse : Nat → Nat → Option Nat → Lattice → Option (Option Nat × Lattice)
  | 0, _, _, _ => none
  | fuel + 1, node, prev, l =>
    match (l.node node).prev with
    | none => some (prev, l)
    | some p => traverse fuel p (some p) (l.setNext p (some node))

/-- What `Viterbi` does after the positions: link the nodes, and test that BOS was reached.  A walk
back without a repeated node takes no more steps than there are nodes. -/
def linkBestPath (l : Lattice) : Option (Bool × Lattice) := do
  let (prev, l') ← traverse (l.size + 1) l.eosNode none l
  return (decide (some l.bosNode = prev), l')

def viterbi (uninit : Nat → Nat → Int) (segments : Segments) (l : Lattice) :
    Option (Bool × Lattice) :=
  let rightBoundary := (segments.segment 0).key.length
  let l := processBOS connector rightBoundary l
  let l := viterbiRange connector uninit 1 rightBoundary l
  let l := viterbiSegments connector uninit rightBoundary (segments.segments.drop 1) l
  linkBestPath (processEOS connector l)

end

section CachingConnector

variable {connector : Connector} {conn : CachingConnector} {lid rid : Nat}

/-- The cache holds costs before the left id `lid` only. -/
def CachingConnector.Ready (connector : Connector) (lid : Nat) (conn : CachingConnector) : Prop :=
  conn.cacheLid = lid ∧
    ∀ rid, conn.cache rid = -1 ∨ conn.cache rid = connector.getTransitionCost rid lid

/-- A cache that was never reset, or that is ready for the left id of its last reset. -/
def CachingConnector.Sound (connector : Connector) (conn : CachingConnector) : Prop :=
  conn.cacheLid = 0xffff ∨ ∃ lid, conn.Ready connector lid

theorem CachingConnector.sound_new (uninit : Nat → Int) :
    (CachingConnector.new uninit).Sound connector := Or.inl rfl

theorem CachingConnector.Sound.reset (h : conn.Sound connector) (hlid : lid < 0xffff) :
    (conn.resetCacheIfNecessary lid).Ready connector lid := by
  unfold resetCacheIfNecessary
  split
  · exact ⟨rfl, fun _ => Or.inl rfl⟩
  · next hne =>
    have heq : conn.cacheLid = lid := not_not.mp hne
    rcases h with h | ⟨lid', h⟩
    · omega
    · rwa [← h.1, heq] at h

theorem CachingConnector.Ready.getTransitionCost (h : conn.Ready connector lid) :
    (conn.getTransitionCost connector rid lid).1 = connector.getTransitionCost rid lid ∧
    (conn.getTransitionCost connector rid lid).2.Ready connector lid := by
  unfold CachingConnector.getTransitionCost
  split
  · exact ⟨rfl, h⟩
  · split
    · next hne => exact ⟨(h.2 rid).resolve_left hne, h⟩
    · refine ⟨rfl, h.1, fun r => ?_⟩
      simp only [Function.update_apply]
      split
      · next hr =>
        rw [hr]
        exact Or.inr rfl
      · exact h.2 r

end CachingConnector

section

variable (connector : Connector)

/-- The transition into `rnode` from a left node, on top of the left node's cost. -/
def Lattice.leftCost (l : Lattice) (rnodeLid lnode : Nat) : Int :=
  (l.node lnode).cost + connector.getTransitionCost (l.node lnode).rid rnodeLid

/-- The scan over the left nodes that have a predecessor. -/
def Lattice.scanLeft (l : Lattice) (rnodeLid pos : Nat) : Int × Option Nat :=
  leastBelow (fun v => (l.node v).prev.isSome) (l.leftCost connector rnodeLid) kVeryBigCost
    (l.endNodes pos)

/-- The predecessor and the cost that `ViterbiInternal` gives to the node `v` at `pos`. -/
def Lattice.relabel (l : Lattice) (pos rightBoundary v : Nat) : Option Nat × Int :=
  if (l.node v).endPos > rightBoundary then (none, (l.node v).cost)
  else
    match (l.node v).constrainedPrev with
    | some p =>
      if (l.node p).prev = none then (none, (l.node v).cost)
      else (some p, l.leftCost connector (l.node v).lid p + (l.node v).wcost)
    | none =>
      let best := l.scanLeft connector (l.node v).lid pos
      (best.2, best.1 + (l.node v).wcost)

variable {connector} {l : Lattice} {pos rightBoundary : Nat} {conn : CachingConnector}

theorem bestLeft_eq {lid : Nat} (h : conn.Ready connector lid) :
    (bestLeft connector l lid (l.endNodes pos) conn).1 = l.scanLeft connector lid pos ∧
    (bestLeft connector l lid (l.endNodes pos) conn).2.Ready connector lid := by
  unfold bestLeft Lattice.scanLeft
  induction l.endNodes pos using List.reverseRecOn with
  | nil => exact ⟨rfl, h⟩
  | append_singleton xs x ih =>
    obtain ⟨heq, hready⟩ := ih
    rw [leastBelow_snoc, ← heq]
    simp only [List.foldl_append, List.foldl_cons, List.foldl_nil]
    generalize List.foldl _ _ xs = r at hready
    obtain ⟨⟨best, node⟩, conn'⟩ := r
    obtain ⟨hcost, hready'⟩ := @CachingConnector.Ready.getTransitionCost _ _ _ (l.node x).rid hready
    cases hp : (l.node x).prev with
    | none => simpa using hready
    | some u =>
      simp only [hcost, Lattice.leftCost, Option.isSome_some, true_and, reduceCtorEq, if_false]
      split
      · exact ⟨rfl, hready'⟩
      · exact ⟨rfl, hready'⟩

theorem Lattice.setPrev_eq (v : Nat) (prev : Option Nat) :
    l.setPrev v prev = l.setPrevCost v prev (l.node v).cost := rfl

theorem viterbiNode_eq (h : conn.Sound connector) {v : Nat} (hlid : (l.node v).lid < 0xffff) :
    (viterbiNode connector pos rightBoundary l conn v).1 =
      l.setPrevCost v (l.relabel connector pos rightBoundary v).1
        (l.relabel connector pos rightBoundary v).2 ∧
    (viterbiNode connector pos rightBoundary l conn v).2.Sound connector := by
  unfold viterbiNode Lattice.relabel
  rw [Lattice.setPrev_eq]
  split
  · exact ⟨rfl, h⟩
  · have hready := h.reset hlid
    cases hc : (l.node v).constrainedPrev with
    | some p =>
      simp only
      split
      · exact ⟨rfl, Or.inr ⟨_, hready⟩⟩
      · obtain ⟨hcost, hready'⟩ := hready.getTransitionCost
        refine ⟨?_, Or.inr ⟨_, hready'⟩⟩
        simp only [hcost, Lattice.leftCost]
        rw [Int.add_right_comm]
    | none =>
      obtain ⟨hbest, hready'⟩ := @bestLeft_eq _ l pos _ _ hready
      simp only [hbest]
      exact ⟨trivial, Or.inr ⟨_, hready'⟩⟩

/-- `l` with a predecessor and a cost written to each of the nodes `vs`. -/
def Lattice.label (l : Lattice) (vs : List Nat) (f : Nat → Option Nat × Int) : Lattice :=
  { l with
    node := fun v =>
      if v ∈ vs then { l.node v with prev := (f v).1, cost := (f v).2 } else l.node v }

theorem Lattice.label_snoc {vs : List Nat} {f : Nat → Option Nat × Int} {v : Nat} (hv : v ∉ vs) :
    (l.label vs f).setPrevCost v (f v).1 (f v).2 = l.label (vs ++ [v]) f := by
  simp only [label, setPrevCost, mk.injEq, true_and, and_true]
  funext x
  by_cases hx : x = v
  · simp [hx, hv]
  · simp [hx]

@[simp] theorem Lattice.label_nil (f : Nat → Option Nat × Int) : l.label [] f = l := by
  simp [label]

theorem Lattice.setPrevCost_eq_label (v : Nat) (prev : Option Nat) (cost : Int) :
    l.setPrevCost v prev cost = l.label [v] (fun _ => (prev, cost)) := by
  have h := @label_snoc l [] (fun _ => (prev, cost)) v (by simp)
  rwa [label_nil] at h

theorem Lattice.foldl_label {step : Lattice → Nat → Lattice} {f : Nat → Option Nat × Int}
    {vs : List Nat} (hvs : vs.Nodup)
    (h : ∀ ws v, ws ⊆ vs → v ∈ vs → v ∉ ws →
      step (l.label ws f) v = (l.label ws f).setPrevCost v (f v).1 (f v).2) :
    vs.foldl step l = l.label vs f := by
  induction vs using List.reverseRecOn with
  | nil => simp
  | append_singleton vs v ih =>
    rw [List.nodup_append] at hvs
    have hv : v ∉ vs := fun hmem => hvs.2.2 v hmem v (by simp) rfl
    rw [List.foldl_append, ih hvs.1 fun ws w hws hw =>
      h ws w (fun x hx => by simp [hws hx]) (by simp [hw])]
    simp only [List.foldl_cons, List.foldl_nil]
    rw [h vs v (by simp) (by simp) hv]
    exact label_snoc hv

theorem Lattice.relabel_congr {l' : Lattice} {v : Nat} (hend : l'.endNodes = l.endNodes)
    (hv : l'.node v = l.node v)
    (hp : ∀ p, (l.node v).constrainedPrev = some p → l'.node p = l.node p)
    (hleft : ∀ u ∈ l.endNodes pos, l'.node u = l.node u) :
    l'.relabel connector pos rightBoundary v = l.relabel connector pos rightBoundary v := by
  have hscan : l'.scanLeft connector (l.node v).lid pos = l.scanLeft connector (l.node v).lid pos := by
    unfold scanLeft
    rw [hend]
    exact leastBelow_congr fun u hu => by simp [leftCost, hleft u hu]
  unfold relabel
  rw [hv]
  cases hc : (l.node v).constrainedPrev with
  | none => simp only [hscan]
  | some p => simp only [leftCost, hp p hc]

theorem viterbiInternal_eq {uninit : Nat → Int} (hnodup : (l.beginNodes pos).Nodup)
    (hlid : ∀ v ∈ l.beginNodes pos, (l.node v).lid < 0xffff)
    (hleft : ∀ v ∈ l.beginNodes pos, v ∉ l.endNodes pos)
    (hcon : ∀ v ∈ l.beginNodes pos, ∀ p, (l.node v).constrainedPrev = some p →
      p ∉ l.beginNodes pos) :
    viterbiInternal connector uninit pos rightBoundary l =
      l.label (l.beginNodes pos) (l.relabel connector pos rightBoundary) := by
  suffices h : ∀ vs : List Nat, vs.Nodup → vs ⊆ l.beginNodes pos →
      let r := vs.foldl
        (fun (l, conn) rnode => viterbiNode connector pos rightBoundary l conn rnode)
        (l, CachingConnector.new uninit)
      r.1 = l.label vs (l.relabel connector pos rightBoundary) ∧ r.2.Sound connector from
    (h _ hnodup (List.Subset.refl _)).1
  intro vs
  induction vs using List.reverseRecOn with
  | nil => exact fun _ _ => ⟨by simp [Lattice.label], CachingConnector.sound_new uninit⟩
  | append_singleton vs v ih =>
    intro hvs hsub
    rw [List.nodup_append] at hvs
    have hv : v ∉ vs := fun hmem => hvs.2.2 v hmem v (by simp) rfl
    obtain ⟨heq, hsound⟩ := ih hvs.1 fun x hx => hsub (by simp [hx])
    simp only [List.foldl_append, List.foldl_cons, List.foldl_nil]
    generalize List.foldl _ _ vs = r at heq hsound
    obtain ⟨m, conn⟩ := r
    subst heq
    have hvb : v ∈ l.beginNodes pos := hsub (by simp)
    have hnode : ∀ x, x ∉ vs → (l.label vs (l.relabel connector pos rightBoundary)).node x =
        l.node x := fun x hx => if_neg hx
    have hvs' : ∀ x ∈ vs, x ∈ l.beginNodes pos := fun x hx => hsub (by simp [hx])
    obtain ⟨heq', hsound'⟩ := viterbiNode_eq hsound
      (l := l.label vs (l.relabel connector pos rightBoundary)) (v := v)
      (by rw [hnode v hv]; exact hlid v hvb)
    have hcongr := @Lattice.relabel_congr connector l _ rightBoundary
      (l.label vs (l.relabel connector pos rightBoundary)) _ rfl (hnode v hv)
      (fun p hp => hnode p fun h => hcon v hvb p hp (hvs' p h))
      (fun u hu => hnode u fun h => hleft u (hvs' u h) hu)
    refine ⟨?_, hsound'⟩
    rw [heq', hcongr]
    exact Lattice.label_snoc hv

variable (connector) in
/-- The label that the first block gives to a node. -/
def Lattice.firstLabel (l : Lattice) (rightBoundary v : Nat) : Option Nat × Int :=
  if (l.node v).endPos > rightBoundary then ((l.node v).prev, (l.node v).cost)
  else (some l.bosNode, l.leftCost connector (l.node v).lid l.bosNode + (l.node v).wcost)

theorem processBOS_eq (hnodup : (l.beginNodes 0).Nodup) (hbos : l.bosNode ∉ l.beginNodes 0) :
    processBOS connector rightBoundary l =
      l.label (l.beginNodes 0) (l.firstLabel connector rightBoundary) := by
  refine Lattice.foldl_label hnodup fun ws v hws _ hv => ?_
  have hnode : (l.label ws (l.firstLabel connector rightBoundary)).node v = l.node v := if_neg hv
  have hnode' : (l.label ws (l.firstLabel connector rightBoundary)).node l.bosNode =
      l.node l.bosNode := if_neg fun h => hbos (hws h)
  have hbos' : (l.label ws (l.firstLabel connector rightBoundary)).bosNode = l.bosNode := rfl
  rw [hbos', hnode, hnode']
  by_cases hend : (l.node v).endPos > rightBoundary
  · have hlabel : l.firstLabel connector rightBoundary v = ((l.node v).prev, (l.node v).cost) :=
      if_pos hend
    rw [if_pos hend, hlabel, ← hnode]
    simp only [Lattice.setPrevCost, Function.update_eq_self]
  · have hlabel : l.firstLabel connector rightBoundary v =
        (some l.bosNode, l.leftCost connector (l.node v).lid l.bosNode + (l.node v).wcost) :=
      if_neg hend
    rw [if_neg hend, hlabel]
    rfl

theorem processEOS_eq : processEOS connector l =
    let best := l.scanLeft connector (l.node l.eosNode).lid l.key.length
    l.setPrevCost l.eosNode best.2 (best.1 + (l.node l.eosNode).wcost) := by
  unfold processEOS Lattice.scanLeft leastBelow
  have hstep : (fun ((bestCost, bestNode) : Int × Option Nat) lnode =>
      if (l.node lnode).prev = none then (bestCost, bestNode)
      else
        let cost := (l.node lnode).cost +
          connector.getTransitionCost (l.node lnode).rid (l.node l.eosNode).lid
        if cost < bestCost then (cost, some lnode) else (bestCost, bestNode)) =
      (fun (best, node) x => if (l.node x).prev.isSome then
        if l.leftCost connector (l.node l.eosNode).lid x < best then
          (l.leftCost connector (l.node l.eosNode).lid x, some x)
        else (best, node) else (best, node)) := by
    funext ⟨best, node⟩ x
    by_cases hp : (l.node x).prev = none
    · simp only [hp, if_true, Option.isSome_none, Bool.false_eq_true, if_false]
    · simp only [hp, if_false, Option.isSome_iff_ne_none.mpr hp, if_true, Lattice.leftCost]
      congr
  simp only [hstep]

end

end Mozkey.Converter
