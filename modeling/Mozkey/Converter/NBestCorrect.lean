import Mozkey.Lib.BestFirst
import Mozkey.Converter.NBestGenerator

/-! From BOS to EOS, on a lattice that `Viterbi` solved, the generator enumerates the paths whose
pairs pass the boundary check in the order of their costs. -/

namespace Mozkey.Converter

open Lib

def QueueElement.path (e : QueueElement) : List Nat := e.node :: e.next.map QueueItem.node

namespace NBestGenerator

section

variable {σ : Type} (modules : NBestModules σ)

def isEdge (m : Lattice) (v : Nat) : Bool :=
  decide ((m.node v).beginPos = (m.node m.eosNode).beginPos) ||
    decide ((m.node v).beginPos = (m.node m.bosNode).endPos)

/-- The pairs of neighbours that pass the boundary check, at the cost that `Next` gives to them. -/
def pathGraph (mode : BoundaryCheckMode) (m : Lattice) : WeightedGraph Nat where
  edge u v := u ∈ m.endNodes (m.node v).beginPos ∧ v ∈ m.beginNodes (m.node v).beginPos ∧
    boundaryCheck modules mode (m.node u) (m.node v) (isEdge m v) ≠ .invalid
  weight u v := modules.connector.getTransitionCost (m.node u).rid (m.node v).lid +
    (m.node v).wcost +
    if boundaryCheck modules mode (m.node u) (m.node v) (isEdge m v) = .validWeakConnected then
      kWeakConnectedPenalty
    else 0
  source := m.bosNode

/-- A lattice that `Viterbi` solved for one segment, without constrained nodes. -/
structure SolvedSingle (segment : Segment) (l m : Lattice) : Prop where
  solvable : Solvable [segment] l
  searched : Searched modules.connector [segment] l true m
  relaxed : (l.admissible modules.connector [segment]).Relaxed m.labels
  unconstrained : ∀ v, v < l.size → (l.node v).constrainedPrev = none

end

variable {σ : Type} {modules : NBestModules σ} {segment : Segment} {l m : Lattice}
  {mode : BoundaryCheckMode}

namespace SolvedSingle

variable (hs : SolvedSingle modules segment l m)
include hs

theorem mem_beginNodes (pos v : Nat) : v ∈ m.beginNodes pos ↔
    v < l.size ∧ v ≠ l.bosNode ∧ (l.node v).beginPos = pos := by
  rw [hs.searched.same.beginNodes]
  exact hs.solvable.mem_beginNodes pos v

theorem mem_endNodes (pos v : Nat) : v ∈ m.endNodes pos ↔
    v < l.size ∧ v ≠ l.eosNode ∧ (l.node v).endPos = pos := by
  rw [hs.searched.same.endNodes]
  exact hs.solvable.mem_endNodes pos v

theorem beginPos (v : Nat) : (m.node v).beginPos = (l.node v).beginPos :=
  hs.searched.same.field v Node.beginPos fun _ => rfl

theorem endPos (v : Nat) : (m.node v).endPos = (l.node v).endPos :=
  hs.searched.same.field v Node.endPos fun _ => rfl

theorem admissible_of_edge {u v : Nat} (he : (pathGraph modules mode m).edge u v) :
    (l.admissible modules.connector [segment]).edge u v := by
  obtain ⟨hu, hv, _⟩ := he
  rw [hs.beginPos] at hu hv
  obtain ⟨hus, hue, hend⟩ := (hs.mem_endNodes _ u).mp hu
  obtain ⟨hvs, hvb, _⟩ := (hs.mem_beginNodes _ v).mp hv
  refine ⟨⟨hus, hue⟩, ⟨hvs, hvb⟩, hend, ?_, by simp [hs.unconstrained v hvs]⟩
  have hkey : l.key.length = segment.key.length := by
    rw [hs.solvable.key_eq]
    simp
  have hle : (l.node v).endPos ≤ l.key.length := by
    by_cases hve : v = l.eosNode
    · rw [hve, hs.solvable.eos_pos.2]
    · exact (hs.solvable.begin_lt_end v hvs hvb hve).2
  simp only [segmentEnd]
  split <;> omega

theorem weight_le (u v : Nat) : (l.admissible modules.connector [segment]).weight u v ≤
    (pathGraph modules mode m).weight u v := by
  have hrid : (m.node u).rid = (l.node u).rid := hs.searched.same.field u Node.rid fun _ => rfl
  have hlid : (m.node v).lid = (l.node v).lid := hs.searched.same.field v Node.lid fun _ => rfl
  have hw : (m.node v).wcost = (l.node v).wcost := hs.searched.same.field v Node.wcost fun _ => rfl
  simp only [Lattice.admissible, pathGraph, hrid, hlid, hw]
  split
  · unfold kWeakConnectedPenalty
    omega
  · omega

theorem consistent : (pathGraph modules mode m).Consistent m.labels.cost
    ((l.admissible modules.connector [segment]).Labelled m.labels) where
  source := by
    have hbos : (pathGraph modules mode m).source = l.bosNode := hs.searched.same.bosNode
    rw [hbos]
    exact ⟨Or.inl rfl, hs.relaxed.cost_source⟩
  edge u v he hu := by
    obtain ⟨hv, hle⟩ := hs.relaxed.edge_le u v (hs.admissible_of_edge he) hu
    exact ⟨hv, hle.trans (Int.add_le_add_left (hs.weight_le u v) _)⟩

theorem not_edge_source (u : Nat) :
    ¬ (pathGraph modules mode m).edge u (pathGraph modules mode m).source := by
  intro he
  have hb : (pathGraph modules mode m).source = l.bosNode := hs.searched.same.bosNode
  rw [hb] at he
  exact (hs.admissible_of_edge he).2.1.2 rfl

theorem endNodes_zero : m.endNodes 0 = [l.bosNode] := by
  have hmem : ∀ v, v ∈ m.endNodes 0 ↔ v ∈ [l.bosNode] := by
    intro v
    rw [hs.mem_endNodes, List.mem_singleton]
    constructor
    · rintro ⟨hv, hve, hend⟩
      by_contra hvb
      have := (hs.solvable.begin_lt_end v hv hvb hve).1
      omega
    · rintro rfl
      exact ⟨hs.solvable.bos_lt, hs.solvable.bos_ne_eos, hs.solvable.bos_pos.2⟩
  have hnodup : (m.endNodes 0).Nodup := by
    rw [hs.searched.same.endNodes]
    exact hs.solvable.nodup_endNodes 0
  exact List.perm_singleton.mp
    ((List.perm_ext_iff_of_nodup hnodup (List.nodup_singleton _)).mpr hmem)

end SolvedSingle

section

variable (modules mode m) in
/-- An element carries the cost of its nodes, and their rating. -/
structure Rated (e : QueueElement) : Prop where
  gx : e.gx = (pathGraph modules mode m).pathCost e.path
  fx : e.fx = (pathGraph modules mode m).rating m.labels.cost e.path

end

theorem leftElement_spec (hs : SolvedSingle modules segment l m) {g : NBestGenerator σ}
    (hbegin : g.beginNode = m.bosNode) (hend : g.endNode = m.eosNode) {top : QueueElement}
    (htop : Rated modules m g.options.boundaryMode top) {u : Nat}
    (hu : u ∈ m.endNodes (m.node top.node).beginPos)
    (hv : top.node ∈ m.beginNodes (m.node top.node).beginPos) :
    match leftElement modules m g top u with
    | none => ¬ (pathGraph modules g.options.boundaryMode m).edge u top.node
    | some e => (pathGraph modules g.options.boundaryMode m).edge u top.node ∧
        e.path = u :: top.path ∧ Rated modules m g.options.boundaryMode e := by
  have hbos : m.bosNode = l.bosNode := hs.searched.same.bosNode
  have heos : m.eosNode = l.eosNode := hs.searched.same.eosNode
  have hbosEnd : (m.node m.bosNode).endPos = 0 := by
    rw [hbos, hs.endPos, hs.solvable.bos_pos.2]
  have hbosCost : (m.node m.bosNode).cost = 0 := by
    rw [hbos]
    exact hs.relaxed.cost_source
  have hleft : (m.node top.node).beginPos = 0 → u = m.bosNode := by
    intro h
    rw [h, hs.endNodes_zero, List.mem_singleton] at hu
    rw [hu, hbos]
  have hright : (m.node top.node).beginPos = (m.node m.eosNode).beginPos → top.node = m.eosNode := by
    intro h
    rw [h, hs.beginPos, heos, hs.solvable.eos_pos.1, hs.searched.same.beginNodes,
      hs.solvable.beginNodes_length, List.mem_singleton] at hv
    rw [hv, heos]
  have heosCost : (m.node m.eosNode).wcost = 0 := by
    rw [heos, hs.searched.same.field l.eosNode Node.wcost fun _ => rfl, hs.solvable.eos_wcost]
  have hcon : (m.node top.node).constrainedPrev = none := by
    rw [hs.searched.same.field top.node Node.constrainedPrev fun _ => rfl]
    exact hs.unconstrained _ ((hs.mem_beginNodes _ _).mp hv).1
  have hpos : ¬ ((m.node u).beginPos < 0 ∧ 0 < (m.node u).endPos) := by omega
  have hcost : ¬ ((m.node top.node).beginPos = 0 ∧
      ¬ (m.node u).cost - (m.node m.bosNode).cost ≤ kCostDiff) := by
    rintro ⟨h, hgt⟩
    rw [hleft h, Int.sub_self] at hgt
    exact hgt (by decide)
  have homit : ¬ ((m.node top.node).beginPos = 0 ∧ (m.node u).rid = (m.node m.bosNode).rid ∧
      u ≠ m.bosNode) := fun ⟨h, _, hne⟩ => hne (hleft h)
  unfold leftElement
  simp only [hbegin, hend, hbosEnd, decide_eq_true_eq, hpos, hcost, homit, if_false]
  have hedge : (decide ((m.node top.node).beginPos = (m.node m.eosNode).beginPos) ||
      decide ((m.node top.node).beginPos = 0)) = isEdge m top.node := by
    rw [isEdge, hbosEnd]
  rw [hedge]
  have htrans : getTransitionCost modules m u top.node =
      modules.connector.getTransitionCost (m.node u).rid (m.node top.node).lid := by
    simp [getTransitionCost, hcon]
  -- the cost of the step, whichever edge of the segment it is at
  have hdiff : (if (m.node top.node).beginPos = (m.node m.eosNode).beginPos then
        (getTransitionCost modules m u top.node +
          ((m.node top.node).cost - (m.node m.eosNode).cost), (0 : Int), (0 : Int))
      else if (m.node top.node).beginPos = 0 then
        (getTransitionCost modules m u top.node + (m.node top.node).wcost +
          ((m.node u).cost - (m.node m.bosNode).cost), 0, (m.node top.node).wcost)
      else
        (getTransitionCost modules m u top.node + (m.node top.node).wcost,
          getTransitionCost modules m u top.node,
          getTransitionCost modules m u top.node + (m.node top.node).wcost)).1 =
      modules.connector.getTransitionCost (m.node u).rid (m.node top.node).lid +
        (m.node top.node).wcost := by
    rw [htrans]
    split
    · next h =>
      have hwcost : (m.node top.node).wcost = 0 := by rw [hright h, heosCost]
      have hcost' : (m.node top.node).cost = (m.node m.eosNode).cost := by rw [hright h]
      dsimp only
      omega
    · split
      · next h =>
        rw [hleft h]
        dsimp only
        omega
      · rfl
  have hrated : ∀ e : QueueElement, e.path = u :: top.path →
      e.gx = (pathGraph modules g.options.boundaryMode m).weight u top.node + top.gx →
      e.fx = (m.node u).cost + e.gx → Rated modules m g.options.boundaryMode e := by
    intro e hpath hgx hfx
    have hcost : (pathGraph modules g.options.boundaryMode m).pathCost e.path = e.gx := by
      rw [hpath, hgx, htop.gx]
      rfl
    refine ⟨hcost.symm, ?_⟩
    rw [hfx, ← hcost, hpath]
    rfl
  cases hcheck : boundaryCheck modules g.options.boundaryMode (m.node u) (m.node top.node)
      (isEdge m top.node) with
  | invalid => exact fun he => he.2.2 hcheck
  | valid =>
    refine ⟨⟨hu, hv, by rw [hcheck]; decide⟩, rfl, hrated _ rfl ?_ rfl⟩
    simp only [reduceCtorEq, if_false, hdiff, pathGraph, hcheck, Int.add_zero]
  | validWeakConnected =>
    refine ⟨⟨hu, hv, by rw [hcheck]; decide⟩, rfl, hrated _ rfl ?_ rfl⟩
    simp only [if_true, hdiff, pathGraph, hcheck]

theorem expand_eq (hs : SolvedSingle modules segment l m) {g : NBestGenerator σ}
    (hbegin : g.beginNode = m.bosNode) (top : QueueElement) : expand modules m g top =
      (m.endNodes (m.node top.node).beginPos).filterMap (leftElement modules m g top) := by
  unfold expand
  dsimp only
  split
  · next h =>
    rw [hbegin, hs.searched.same.bosNode, hs.endPos, hs.solvable.bos_pos.2] at h
    rw [h, hs.endNodes_zero]
    cases hb : leftElement modules m g top l.bosNode with
    | none => simp [hb]
    | some e => simp [hb]
  · rfl

theorem expand_spec (hs : SolvedSingle modules segment l m) {g : NBestGenerator σ}
    (hbegin : g.beginNode = m.bosNode) (hend : g.endNode = m.eosNode) {top : QueueElement}
    (htop : Rated modules m g.options.boundaryMode top)
    (hv : top.node ∈ m.beginNodes (m.node top.node).beginPos) :
    (∀ q, q ∈ (expand modules m g top).map QueueElement.path ↔ ∃ u, q = u :: top.path ∧
      (pathGraph modules g.options.boundaryMode m).edge u top.node) ∧
    ∀ e ∈ expand modules m g top, Rated modules m g.options.boundaryMode e := by
  have hspec := fun u hu => leftElement_spec hs hbegin hend htop (u := u) hu hv
  rw [expand_eq hs hbegin]
  refine ⟨fun q => ⟨fun hq => ?_, fun ⟨u, hq, he⟩ => ?_⟩, fun e he => ?_⟩
  · obtain ⟨e, he, rfl⟩ := List.mem_map.mp hq
    obtain ⟨u, hu, hue⟩ := List.mem_filterMap.mp he
    have h := hspec u hu
    rw [hue] at h
    exact ⟨u, h.2.1, h.1⟩
  · have h := hspec u he.1
    cases hue : leftElement modules m g top u with
    | none =>
      rw [hue] at h
      exact absurd he h
    | some e =>
      rw [hue] at h
      exact List.mem_map.mpr ⟨e, List.mem_filterMap.mpr ⟨u, he.1, hue⟩, h.2.1.trans hq.symm⟩
  · obtain ⟨u, hu, hue⟩ := List.mem_filterMap.mp he
    have h := hspec u hu
    rw [hue] at h
    exact h.2.2

def inner (p : List Nat) : List Nat := p.tail.dropLast

variable (modules l m) in
/-- The state between two rounds of the search: `bound` is the cost of the last candidate. -/
structure Searching (segment : Segment) (options : NBestOptions) (bound : Int)
    (g : NBestGenerator σ) : Prop where
  beginNode : g.beginNode = m.bosNode
  endNode : g.endNode = m.eosNode
  options_eq : g.options = options
  rated : ∀ e ∈ g.agenda, Rated modules m options.boundaryMode e
  frontier : (pathGraph modules options.boundaryMode m).Frontier m.eosNode m.labels.cost
    ((l.admissible modules.connector [segment]).Labelled m.labels)
    (g.agenda.map QueueElement.path)
    (fun p => g.tooManyTrials = true ∨ inner p ∈ g.offered) bound

/-- What a call of `Next` from a state of bound `bound` gives. -/
structure Called (modules : NBestModules σ) (segment : Segment) (l m : Lattice)
    (options : NBestOptions) (bound : Int) (g : NBestGenerator σ)
    (result : Bool × Candidate × NBestGenerator σ) (bound' : Int) : Prop where
  bound_le : bound ≤ bound'
  searching : Searching modules l m segment options bound' result.2.2
  offered : g.offered <+: result.2.2.offered
  tooManyTrials : g.tooManyTrials = true → result.2.2.tooManyTrials = true
  checked : g.viterbiResultChecked = true → result.2.2.viterbiResultChecked = true
  cost : result.1 = true → result.2.1.cost = bound'
  complete : result.1 = true → result.2.2.tooManyTrials = false →
    ∀ p, (pathGraph modules options.boundaryMode m).IsComplete m.eosNode p →
      (pathGraph modules options.boundaryMode m).pathCost p < bound' → inner p ∈ result.2.2.offered

theorem makeCandidate_cost (options : NBestOptions) (cost structureCost wcost : Int)
    (nodes : List Nat) :
    (makeCandidate modules m options cost structureCost wcost nodes).cost = cost := by
  unfold makeCandidate
  dsimp only
  split <;> rfl

theorem Called.rfl {options : NBestOptions} {bound : Int} {g : NBestGenerator σ}
    (hg : Searching modules l m segment options bound g) (candidate : Candidate) :
    Called modules segment l m options bound g (false, candidate, g) bound where
  bound_le := le_refl _
  searching := hg
  offered := List.prefix_rfl
  tooManyTrials h := h
  checked h := h
  cost h := by cases h
  complete h := by cases h

theorem Called.trans {options : NBestOptions} {bound bound' bound'' : Int}
    {g g' : NBestGenerator σ} {c : Candidate} {result : Bool × Candidate × NBestGenerator σ}
    (h : Called modules segment l m options bound g (false, c, g') bound')
    (h' : Called modules segment l m options bound' g' result bound'') :
    Called modules segment l m options bound g result bound'' where
  bound_le := h.bound_le.trans h'.bound_le
  searching := h'.searching
  offered := h.offered.trans h'.offered
  tooManyTrials ht := h'.tooManyTrials (h.tooManyTrials ht)
  checked hc := h'.checked (h.checked hc)
  cost := h'.cost
  complete := h'.complete

theorem Searching.pop {options : NBestOptions} {bound : Int} {g : NBestGenerator σ}
    (hg : Searching modules l m segment options bound g) :
    modules.agenda.pop g.agenda = none ∨
    ∃ top rest, modules.agenda.pop g.agenda = some (top, rest) ∧
      Rated modules m options.boundaryMode top ∧
      (∀ e ∈ rest, Rated modules m options.boundaryMode e) ∧ (∀ e ∈ rest, top.fx ≤ e.fx) ∧
      (pathGraph modules options.boundaryMode m).Frontier m.eosNode m.labels.cost
        ((l.admissible modules.connector [segment]).Labelled m.labels)
        (top.path :: rest.map QueueElement.path)
        (fun p => g.tooManyTrials = true ∨ inner p ∈ g.offered) bound := by
  by_cases hnil : g.agenda = []
  · left
    rw [hnil, modules.agenda.pop_nil]
  · obtain ⟨top, rest, heq, hperm, hmin⟩ := modules.agenda.pop_cons g.agenda hnil
    have hrated := fun e he => hg.rated e (hperm.mem_iff.mpr he)
    exact Or.inr ⟨top, rest, heq, hrated top (by simp), fun e he => hrated e (by simp [he]), hmin,
      hg.frontier.of_perm (hperm.map QueueElement.path)⟩

theorem SolvedSingle.head_cases (hs : SolvedSingle modules segment l m) {v : Nat} {p : List Nat}
    (hp : (pathGraph modules mode m).IsPartial m.eosNode (v :: p)) :
    ((m.node v).endPos = (m.node m.bosNode).endPos → v = m.bosNode ∧ p ≠ []) ∧
    ((m.node v).endPos ≠ (m.node m.bosNode).endPos →
      v ≠ m.bosNode ∧ v ∈ m.beginNodes (m.node v).beginPos) := by
  have hbos : m.bosNode = l.bosNode := hs.searched.same.bosNode
  have heos : m.eosNode = l.eosNode := hs.searched.same.eosNode
  have hkey := hs.solvable.key_pos
  have hpos : (m.node m.bosNode).endPos = 0 := by rw [hbos, hs.endPos, hs.solvable.bos_pos.2]
  cases p with
  | nil =>
    obtain rfl : v = m.eosNode := by simpa using hp.last
    have hend : (m.node m.eosNode).endPos = l.key.length := by
      rw [heos, hs.endPos, hs.solvable.eos_pos.2]
    refine ⟨fun h => by omega, fun _ => ⟨?_, ?_⟩⟩
    · rw [hbos, heos]
      exact hs.solvable.bos_ne_eos.symm
    · rw [hs.mem_beginNodes, heos, hs.beginPos]
      exact ⟨hs.solvable.eos_lt, hs.solvable.bos_ne_eos.symm, rfl⟩
  | cons w p =>
    have he := (List.isChain_cons_cons.mp hp.chain).1
    obtain ⟨⟨hvs, hve⟩, _⟩ := hs.admissible_of_edge he
    refine ⟨fun h => ⟨?_, by simp⟩, fun h => ?_⟩
    · have hmem : v ∈ m.endNodes 0 := by
        rw [hs.mem_endNodes, ← hs.endPos]
        exact ⟨hvs, hve, h.trans hpos⟩
      rw [hs.endNodes_zero, List.mem_singleton] at hmem
      rw [hmem, hbos]
    · have hvb : v ≠ m.bosNode := fun hvb => h (by rw [hvb])
      refine ⟨hvb, ?_⟩
      rw [hs.mem_beginNodes, hs.beginPos, ← hbos]
      exact ⟨hvs, hvb, rfl⟩

theorem makeCandidateFromElement_eq {g : NBestGenerator σ} {top : QueueElement}
    (candidate : Candidate) (hmode : g.options.buildFromOnlyFirstInnerSegment = false)
    (hnext : top.next ≠ []) :
    ∃ result made filter, makeCandidateFromElement modules m g top candidate =
      (result, made, { g with filter := filter, offered := g.offered ++ [inner top.path] }) ∧
      made.cost = top.gx := by
  unfold makeCandidateFromElement
  cases hn : top.next with
  | nil => exact absurd hn hnext
  | cons elm rest =>
    have hinner : ((elm :: rest).dropLast).map QueueItem.node = inner top.path := by
      rw [inner, QueueElement.path, hn, List.tail_cons, List.map_dropLast]
    simp only [hmode, Bool.false_eq_true, if_false, hinner]
    exact ⟨_, _, _, rfl, makeCandidate_cost _ _ _ _ _⟩

theorem nextLoop_called (hs : SolvedSingle modules segment l m) {options : NBestOptions}
    (hoptions : options.buildFromOnlyFirstInnerSegment = false) (trials : Nat) (bound : Int)
    (g : NBestGenerator σ) (candidate : Candidate)
    (hg : Searching modules l m segment options bound g) :
    ∃ bound', Called modules segment l m options bound g
      (nextLoop modules m trials g candidate) bound' := by
  induction trials generalizing bound g candidate with
  | zero =>
    unfold nextLoop
    rcases hg.pop with hpop | ⟨top, rest, hpop, _, hrest, _, hf⟩
    · rw [hpop]
      exact ⟨bound, Called.rfl hg candidate⟩
    · rw [hpop]
      refine ⟨bound, ⟨le_refl _, ⟨hg.beginNode, hg.endNode, hg.options_eq, hrest, ?_⟩,
        List.prefix_rfl, fun _ => rfl, id, (fun h => by cases h), (fun h => by cases h)⟩⟩
      exact hf.giveUp fun _ => Or.inl rfl
  | succ trials ih =>
    unfold nextLoop
    rcases hg.pop with hpop | ⟨top, rest, hpop, htop, hrest, hmin, hf⟩
    · rw [hpop]
      exact ⟨bound, Called.rfl hg candidate⟩
    · rw [hpop]
      dsimp only
      have hhead := hs.head_cases (hf.isPartial top.path (by simp))
      split
      · next hgoal =>
        rw [hg.beginNode] at hgoal
        obtain ⟨hbos, hne⟩ := hhead.1 hgoal
        have hpath : top.path = (pathGraph modules options.boundaryMode m).source ::
            top.next.map QueueItem.node := by
          rw [QueueElement.path, hbos]
          rfl
        obtain ⟨result, made, filter, heq, hcost⟩ := makeCandidateFromElement_eq (m := m) (g := { g with agenda := rest }) candidate
          (by rw [hg.options_eq]; exact hoptions) (by simpa using hne)
        have hrating : ∀ q ∈ rest.map QueueElement.path,
            (pathGraph modules options.boundaryMode m).rating m.labels.cost top.path ≤
              (pathGraph modules options.boundaryMode m).rating m.labels.cost q := by
          intro q hq
          obtain ⟨e, he, rfl⟩ := List.mem_map.mp hq
          rw [← htop.fx, ← (hrest e he).fx]
          exact hmin e he
        rw [hpath] at hf hrating
        obtain ⟨hle, hf', hcomplete⟩ := hf.finish
          hs.consistent hs.not_edge_source hrating
          (fun p hp => (hp.imp_right fun h => List.mem_append_left _ h :
            g.tooManyTrials = true ∨ inner p ∈ g.offered ++ [inner top.path]))
          (Or.inr (by rw [hpath]; exact List.mem_append_right _ (by simp)))
        rw [← hpath, ← htop.gx] at hle hf' hcomplete
        have hcalled : ∀ ok, Called modules segment l m options bound g (ok, made,
            { g with
              agenda := rest
              filter := filter
              offered := g.offered ++ [inner top.path] }) top.gx := by
          intro ok
          refine ⟨hle, ⟨hg.beginNode, hg.endNode, hg.options_eq, hrest, hf'⟩,
            List.prefix_append _ _, id, id, fun _ => hcost, fun _ hlimit p hp hlt => ?_⟩
          exact (hcomplete p hp hlt).resolve_left fun h => by simp [h] at hlimit
        rw [heq]
        cases result with
        | goodCandidate => exact ⟨_, hcalled true⟩
        | stopEnumeration => exact ⟨_, hcalled false⟩
        | badCandidate =>
          obtain ⟨bound', h⟩ := ih _ _ made (hcalled false).searching
          exact ⟨bound', (hcalled false).trans h⟩
      · next hgoal =>
        rw [hg.beginNode] at hgoal
        obtain ⟨hbos, hv⟩ := hhead.2 hgoal
        obtain rfl := hg.options_eq
        obtain ⟨hchildren, hrated⟩ := expand_spec hs (g := { g with agenda := rest }) hg.beginNode
          hg.endNode htop hv
        have hsearching : Searching modules l m segment g.options bound
            { g with agenda := rest ++ expand modules m { g with agenda := rest } top } := by
          refine ⟨hg.beginNode, hg.endNode, rfl, fun e he => ?_, ?_⟩
          · rcases List.mem_append.mp he with he | he
            · exact hrest e he
            · exact hrated e he
          · rw [List.map_append]
            exact hf.expand hs.consistent hbos hchildren
        obtain ⟨bound', h⟩ := ih bound _ candidate hsearching
        exact ⟨bound', h.bound_le, h.searching, h.offered, h.tooManyTrials, h.checked, h.cost,
          h.complete⟩

theorem pathUntil_eq {endNode v : Nat} {vs : List Nat} {fuel : Nat}
    (hchain : (v :: vs).IsChain (fun u w => (m.node u).next = some w)) (hnodup : (v :: vs).Nodup)
    (hlast : (v :: vs).getLast? = some endNode) (hfuel : (v :: vs).length ≤ fuel) :
    pathUntil m endNode fuel v = (v :: vs).dropLast := by
  obtain ⟨fuel, rfl⟩ : ∃ k, fuel = k + 1 := ⟨fuel - 1, by rw [List.length_cons] at hfuel; omega⟩
  induction vs generalizing v fuel with
  | nil =>
    obtain rfl : v = endNode := by simpa using hlast
    simp [pathUntil]
  | cons w vs ih =>
    obtain ⟨hnext, hchain⟩ := List.isChain_cons_cons.mp hchain
    rw [List.getLast?_cons_cons] at hlast
    have hne : v ≠ endNode := by
      rintro rfl
      exact (List.nodup_cons.mp hnodup).1 (List.mem_of_getLast? hlast)
    simp only [List.length_cons] at hfuel
    obtain ⟨fuel, rfl⟩ : ∃ k, fuel = k + 1 := ⟨fuel - 1, by omega⟩
    rw [pathUntil, if_neg hne, hnext, List.dropLast_cons_cons]
    dsimp only
    rw [ih hchain (List.nodup_cons.mp hnodup).2 hlast fuel (by simp only [List.length_cons]; omega)]

theorem SolvedSingle.bestPathNodes_eq (hs : SolvedSingle modules segment l m)
    {g : NBestGenerator σ} (hbegin : g.beginNode = m.bosNode) (hend : g.endNode = m.eosNode) :
    bestPathNodes m g = inner (m.labels.back (l.rank l.eosNode) l.eosNode) := by
  have hl := hs.solvable
  have hlinked := hs.searched.linked rfl
  have hr := @ranked_admissible modules.connector [segment] _ hl.toFresh
  have hnodup := hs.searched.traced.nodup_back hr (l.rank l.eosNode) l.eosNode
  have hlt : ∀ v, (l.admissible modules.connector [segment]).Labelled m.labels v →
      v ∈ List.range l.size := by
    rintro v (rfl | hv)
    · exact List.mem_range.mpr hl.bos_lt
    · obtain ⟨u, hu⟩ := Option.isSome_iff_exists.mp hv
      exact List.mem_range.mpr (hs.searched.traced.step v u hu).1.2.1.1
  have hlength := hs.searched.traced.length_back_le hr hlt (l.rank l.eosNode) l.eosNode
    (List.mem_range.mpr hl.eos_lt)
  rw [List.length_range, ← hs.searched.same.size] at hlength
  have hne : m.bosNode ≠ m.eosNode := by
    rw [hs.searched.same.bosNode, hs.searched.same.eosNode]
    exact hl.bos_ne_eos
  generalize m.labels.back (l.rank l.eosNode) l.eosNode = p at hlinked hnodup hlength
  obtain ⟨hhead, hlast, _, _, _, hnext⟩ := hlinked
  cases p with
  | nil => simp at hhead
  | cons a p =>
    obtain rfl : a = m.bosNode := by simpa using hhead
    cases p with
    | nil =>
      have : m.bosNode = m.eosNode := by simpa using hlast
      exact absurd this hne
    | cons first rest =>
      obtain ⟨hfirst, hchain⟩ := List.isChain_cons_cons.mp hnext
      rw [List.getLast?_cons_cons] at hlast
      rw [bestPathNodes, hbegin, hend, hfirst]
      simp only [List.length_cons] at hlength
      exact pathUntil_eq hchain (List.nodup_cons.mp hnodup).2 hlast
        (by simp only [List.length_cons]; omega)

/-- Two neighbours of a path have alphabet keys where they meet. -/
def joinsAlphabetKeys (m : Lattice) (nodes : List Nat) : Bool :=
  (nodes.zip (nodes.drop 1)).any fun (left, right) =>
    isBetweenAlphabetKeys (m.node left) (m.node right)

theorem length_takeWhile_lt {α : Type} (p : α → Bool) (xs : List α) :
    (xs.takeWhile fun x => !p x).length < xs.length ↔ xs.any p = true := by
  induction xs with
  | nil => simp
  | cons x xs ih =>
    by_cases hx : p x = true
    · simp [hx]
    · simp only [Bool.not_eq_true] at hx
      simp only [List.takeWhile_cons, hx, Bool.not_false, if_true, List.length_cons,
        List.any_cons, Bool.false_or, Nat.add_lt_add_iff_right]
      exact ih

theorem insertTopResult_eq (hs : SolvedSingle modules segment l m) {g : NBestGenerator σ}
    (hbegin : g.beginNode = m.bosNode) (hend : g.endNode = m.eosNode)
    (hmode : g.options.buildFromOnlyFirstInnerSegment = false) (candidate : Candidate)
    (best : List Nat) (hbest : best = m.labels.back (l.rank l.eosNode) l.eosNode) :
    (joinsAlphabetKeys m (inner best) = true ∧ ∃ topNodes,
      insertTopResult modules m g candidate =
        (.stopEnumeration, candidate, { g with topNodes := topNodes })) ∨
    (joinsAlphabetKeys m (inner best) = false ∧ ∃ topNodes result made filter,
      insertTopResult modules m g candidate =
        (result, made,
          { g with
            topNodes := topNodes
            filter := filter
            offered := g.offered ++ [inner best] }) ∧
      made.cost = (m.node m.eosNode).cost) := by
  have hnodes : bestPathNodes m g = inner best := by rw [hbest, hs.bestPathNodes_eq hbegin hend]
  have hwcost : (m.node m.eosNode).wcost = 0 := by
    rw [hs.searched.same.eosNode, hs.searched.same.field l.eosNode Node.wcost fun _ => rfl,
      hs.solvable.eos_wcost]
  have hcost : (m.node m.bosNode).cost = 0 := by
    rw [hs.searched.same.bosNode]
    exact hs.relaxed.cost_source
  have hzip : ((inner best).zip ((inner best).drop 1)).length = (inner best).length - 1 := by
    rw [List.length_zip, List.length_drop]
    omega
  have hjoins := length_takeWhile_lt (fun pair : Nat × Nat =>
    isBetweenAlphabetKeys (m.node pair.1) (m.node pair.2)) ((inner best).zip ((inner best).drop 1))
  rw [hzip] at hjoins
  unfold insertTopResult makeCandidateFromBestPath
  simp only [hmode, hnodes, Bool.false_eq_true, if_false]
  cases hj : joinsAlphabetKeys m (inner best) with
  | true =>
    left
    rw [if_pos (hjoins.mpr hj)]
    exact ⟨rfl, _, rfl⟩
  | false =>
    right
    rw [if_neg fun h => by
      have := hjoins.mp h
      unfold joinsAlphabetKeys at hj
      rw [hj] at this
      cases this]
    refine ⟨rfl, _, _, _, _, rfl, ?_⟩
    simp only [hbegin, hend, hwcost, hcost]
    split
    · rw [makeCandidate_cost]
      omega
    · rw [makeCandidate_cost]
      omega

theorem next_called (hs : SolvedSingle modules segment l m) {options : NBestOptions}
    (hoptions : options.buildFromOnlyFirstInnerSegment = false) {bound : Int}
    {g : NBestGenerator σ} (candidate : Candidate)
    (hg : Searching modules l m segment options bound g)
    (hfirst : g.viterbiResultChecked = true ∨ bound = (m.node m.eosNode).cost) :
    ∃ bound', Called modules segment l m options bound g (next modules m g candidate) bound' ∧
      (next modules m g candidate).2.2.viterbiResultChecked = true := by
  unfold next
  split
  · next hchecked =>
    obtain ⟨bound', h⟩ := nextLoop_called hs hoptions (kMaxTrial + 1) bound g candidate hg
    exact ⟨bound', h, h.checked hchecked⟩
  · next hchecked =>
    obtain rfl := hfirst.resolve_left hchecked
    obtain rfl := hg.options_eq
    rcases insertTopResult_eq hs (g := { g with viterbiResultChecked := true }) hg.beginNode
      hg.endNode hoptions candidate _ rfl with
      ⟨_, topNodes, heq⟩ | ⟨_, topNodes, result, made, filter, heq, hcost⟩
    · rw [heq]
      exact ⟨_, ⟨le_refl _, ⟨hg.beginNode, hg.endNode, rfl, hg.rated, hg.frontier⟩,
        List.prefix_rfl, id, fun _ => rfl, (fun h => by cases h), (fun h => by cases h)⟩, rfl⟩
    · have hcalled : ∀ ok, Called modules segment l m g.options (m.node m.eosNode).cost g (ok, made,
          { g with
            topNodes := topNodes
            filter := filter
            viterbiResultChecked := true
            offered := g.offered ++
              [inner (m.labels.back (l.rank l.eosNode) l.eosNode)] }) (m.node m.eosNode).cost := by
        intro ok
        refine ⟨le_refl _, ⟨hg.beginNode, hg.endNode, rfl, hg.rated, ?_⟩, List.prefix_append _ _, id,
          fun _ => rfl, fun _ => hcost, fun _ _ p hp hlt => ?_⟩
        · exact hg.frontier.mono fun p hp => hp.imp_right fun h => List.mem_append_left _ h
        · have hle := hp.le hs.consistent
          exact absurd hlt (not_lt.mpr hle)
      rw [heq]
      cases result with
      | goodCandidate => exact ⟨_, hcalled true, rfl⟩
      | stopEnumeration => exact ⟨_, hcalled false, rfl⟩
      | badCandidate =>
        obtain ⟨bound', h⟩ := nextLoop_called hs hoptions (kMaxTrial + 1) _ _ made
          (hcalled false).searching
        exact ⟨bound', (hcalled false).trans h, h.checked rfl⟩

section

variable (modules m) in
def calls (g : NBestGenerator σ) : Nat → NBestGenerator σ
  | 0 => g
  | n + 1 => (next modules m (calls g n) {}).2.2

variable (modules m) in
def call (g : NBestGenerator σ) (n : Nat) : Bool × Candidate × NBestGenerator σ :=
  next modules m (calls modules m g n) {}

theorem reset_searching (hs : SolvedSingle modules segment l m) (g : NBestGenerator σ)
    (options : NBestOptions) : Searching modules l m segment options (m.node m.eosNode).cost
      (reset modules m g m.bosNode m.eosNode options) := by
  have heos : m.eosNode = l.eosNode := hs.searched.same.eosNode
  have hbegin : m.beginNodes (m.node m.eosNode).beginPos = [m.eosNode] := by
    rw [heos, hs.beginPos, hs.solvable.eos_pos.1, hs.searched.same.beginNodes,
      hs.solvable.beginNodes_length]
  have hagenda : (reset modules m g m.bosNode m.eosNode options).agenda =
      [{ node := m.eosNode, fx := (m.node m.eosNode).cost, gx := 0, structureGx := 0, wGx := 0,
         next := [] }] := by
    simp [reset, hbegin]
  refine ⟨rfl, rfl, rfl, fun e he => ?_, ?_⟩
  · rw [hagenda, List.mem_singleton] at he
    rw [he]
    exact ⟨rfl, by simp [QueueElement.path, WeightedGraph.rating, WeightedGraph.pathCost,
      Lattice.labels]⟩
  · rw [hagenda]
    exact WeightedGraph.Frontier.start (le_refl _)

theorem first_call (hs : SolvedSingle modules segment l m) {options : NBestOptions}
    (hoptions : options.buildFromOnlyFirstInnerSegment = false) (g : NBestGenerator σ)
    (best : List Nat) (hbest : best = m.labels.back (l.rank l.eosNode) l.eosNode) :
    let start := reset modules m g m.bosNode m.eosNode options
    if joinsAlphabetKeys m (inner best) then
      (call modules m start 0).1 = false ∧ (call modules m start 0).2.2.offered = []
    else [inner best] <+: (call modules m start 0).2.2.offered := by
  intro start
  have hsearching := reset_searching hs g options
  have hchecked : ¬ start.viterbiResultChecked = true := by simp [start, reset]
  unfold call calls next
  rw [if_neg hchecked]
  rcases insertTopResult_eq hs (g := { start with viterbiResultChecked := true })
    hsearching.beginNode hsearching.endNode hoptions {} best hbest with
    ⟨hj, topNodes, heq⟩ | ⟨hj, topNodes, result, made, filter, heq, _⟩
  · rw [if_pos hj, heq]
    exact ⟨rfl, rfl⟩
  · rw [if_neg (by simp [hj]), heq]
    cases result with
    | goodCandidate => exact List.prefix_rfl
    | stopEnumeration => exact List.prefix_rfl
    | badCandidate =>
      have hsearching' : Searching modules l m segment options (m.node m.eosNode).cost
          { start with
            topNodes := topNodes
            filter := filter
            viterbiResultChecked := true
            offered := start.offered ++ [inner best] } :=
        ⟨hsearching.beginNode, hsearching.endNode, hsearching.options_eq, hsearching.rated,
          hsearching.frontier.mono fun p hp => hp.imp_right fun h => List.mem_append_left _ h⟩
      obtain ⟨_, h⟩ := nextLoop_called hs hoptions (kMaxTrial + 1) _ _ made hsearching'
      exact h.offered

theorem call_called (hs : SolvedSingle modules segment l m) {options : NBestOptions}
    (hoptions : options.buildFromOnlyFirstInnerSegment = false) (g : NBestGenerator σ) :
    ∃ bound : Nat → Int, ∀ n, Called modules segment l m options (bound n)
      (calls modules m (reset modules m g m.bosNode m.eosNode options) n)
      (call modules m (reset modules m g m.bosNode m.eosNode options) n) (bound (n + 1)) := by
  generalize hstart : reset modules m g m.bosNode m.eosNode options = start
  have hsearching := hstart ▸ reset_searching hs g options
  have hstep : ∀ n bound, Searching modules l m segment options bound (calls modules m start n) ∧
      ((calls modules m start n).viterbiResultChecked = true ∨
        bound = (m.node m.eosNode).cost) →
      ∃ bound', Called modules segment l m options bound (calls modules m start n)
        (call modules m start n) bound' ∧
        Searching modules l m segment options bound' (calls modules m start (n + 1)) ∧
        ((calls modules m start (n + 1)).viterbiResultChecked = true ∨
          bound' = (m.node m.eosNode).cost) := by
    rintro n bound ⟨h, hfirst⟩
    obtain ⟨bound', hcalled, hchecked⟩ := next_called hs hoptions {} h hfirst
    exact ⟨bound', hcalled, hcalled.searching, Or.inl hchecked⟩
  choose! f hf using hstep
  let bound : Nat → Int := fun n => n.rec (m.node m.eosNode).cost fun n b => f n b
  have hbound : ∀ n, Searching modules l m segment options (bound n) (calls modules m start n) ∧
      ((calls modules m start n).viterbiResultChecked = true ∨
        bound n = (m.node m.eosNode).cost) := by
    intro n
    induction n with
    | zero => exact ⟨hsearching, Or.inr rfl⟩
    | succ n ih => exact (hf n (bound n) ih).2
  exact ⟨bound, fun n => (hf n (bound n) (hbound n)).1⟩

end

/-- From BOS to EOS, unless candidates are made of the first inner segment only: the first question
to the filter is about the path of `Viterbi` (none is asked if that path joins alphabet keys), the
costs of the candidates do not fall, and before a candidate of some cost all cheaper paths were
offered to the filter, as long as no call ran into the limit of trials. -/
theorem nBest_enumerates_in_order (modules : NBestModules σ) (uninit : Nat → Nat → Int)
    (segment : Segment) (bosId : Nat) (nodes : List (Nat × Node)) (m : Lattice)
    (g : NBestGenerator σ) (options : NBestOptions) (hkey : segment.key ≠ [])
    (hlen : segment.key.length < 2 ^ 16) (hpos : ∀ p ∈ nodes, p.1 < segment.key.length)
    (hnodes : ∀ p ∈ nodes, p.2.key ≠ []) (hlid : ∀ p ∈ nodes, p.2.lid < modules.connector.size)
    (hcon : ∀ p ∈ nodes, p.2.constrainedPrev = none)
    (hcost : (Lattice.fill segment.key bosId nodes).CostsBounded modules.connector [segment])
    (hviterbi : viterbi modules.connector uninit ⟨[segment]⟩
      (Lattice.fill segment.key bosId nodes) = some (true, m))
    (hoptions : options.buildFromOnlyFirstInnerSegment = false) :
    let start := reset modules m g m.bosNode m.eosNode options
    let graph := pathGraph modules options.boundaryMode m
    (∃ best, m.Linked best ∧
      if joinsAlphabetKeys m (inner best) then
        (call modules m start 0).1 = false ∧ (call modules m start 0).2.2.offered = []
      else ∀ n, (call modules m start n).2.2.offered.head? = some (inner best)) ∧
    (∀ i j, i ≤ j → (call modules m start i).1 = true → (call modules m start j).1 = true →
      (call modules m start i).2.1.cost ≤ (call modules m start j).2.1.cost) ∧
    (∀ i, (call modules m start i).1 = true →
      (call modules m start i).2.2.tooManyTrials = false →
      ∀ p, graph.IsComplete m.eosNode p →
        graph.pathCost p < (call modules m start i).2.1.cost →
        inner p ∈ (call modules m start i).2.2.offered) := by
  intro start graph
  have hl : Solvable [segment] (Lattice.fill segment.key bosId nodes) := by
    refine solvable_fill (by simp [Segments.joinedKey]) ⟨segment, rfl, hkey⟩ hlen hpos hnodes
      (fun p hp => ?_) (fun p hp c hc => by rw [hcon p hp] at hc; cases hc)
    have := hlid p hp
    have := modules.connector.size_le
    omega
  obtain ⟨found, m', heq, hsearched, hrelaxed⟩ :=
    viterbi_solves uninit hl hcost
  obtain ⟨rfl, rfl⟩ := Prod.mk.inj (Option.some.inj (hviterbi.symm.trans heq))
  have hs : SolvedSingle modules segment (Lattice.fill segment.key bosId nodes) m :=
    ⟨hl, hsearched, hrelaxed,
      (Lattice.fill_forall (P := fun n => n.constrainedPrev = none) rfl rfl hcon).2⟩
  obtain ⟨bound, hcalled⟩ := call_called hs hoptions g
  have hmono : ∀ i j, i ≤ j → bound i ≤ bound j := fun i j hij => by
    induction j with
    | zero => rw [Nat.le_zero.mp hij]
    | succ j ih =>
      rcases Nat.lt_or_ge j i with h | h
      · rw [show i = j + 1 by omega]
      · exact (ih h).trans (hcalled j).bound_le
  obtain ⟨best, hlinked, hbest⟩ : ∃ best, m.Linked best ∧ best = _ :=
    ⟨_, hsearched.linked rfl, rfl⟩
  refine ⟨⟨best, hlinked, ?_⟩, fun i j hij hi hj => ?_, fun i hi hlimit p hp hlt => ?_⟩
  · have hfirst := first_call hs hoptions g best hbest
    split
    · next hj => rwa [if_pos hj] at hfirst
    · next hj =>
      rw [if_neg hj] at hfirst
      intro n
      have hpre : [inner best] <+: (call modules m start n).2.2.offered := by
        induction n with
        | zero => exact hfirst
        | succ n ih => exact ih.trans (hcalled (n + 1)).offered
      obtain ⟨offered, hoffered⟩ := hpre
      rw [← hoffered]
      rfl
  · rw [(hcalled i).cost hi, (hcalled j).cost hj]
    exact hmono _ _ (by omega)
  · rw [(hcalled i).cost hi] at hlt
    exact (hcalled i).complete hi hlimit p hp hlt

theorem nBest_enumerates_in_order_one_node :
    let modules := plainModules zeroConnector
    let g : NBestGenerator Unit := { beginNode := 0, endNode := 1, filter := () }
    let options : NBestOptions := { boundaryMode := .onlyEdge }
    ∃ m, viterbi zeroConnector (fun _ _ => 0) ⟨[{ key := [0x61] }]⟩
        (Lattice.fill [0x61] 0 [(0, { key := [0x61] })]) = some (true, m) ∧
      let start := reset modules m g m.bosNode m.eosNode options
      let graph := pathGraph modules options.boundaryMode m
      (∃ best, m.Linked best ∧
        if joinsAlphabetKeys m (inner best) then
          (call modules m start 0).1 = false ∧ (call modules m start 0).2.2.offered = []
        else ∀ n, (call modules m start n).2.2.offered.head? = some (inner best)) ∧
      (∀ i j, i ≤ j → (call modules m start i).1 = true → (call modules m start j).1 = true →
        (call modules m start i).2.1.cost ≤ (call modules m start j).2.1.cost) ∧
      (∀ i, (call modules m start i).1 = true →
        (call modules m start i).2.2.tooManyTrials = false →
        ∀ p, graph.IsComplete m.eosNode p →
          graph.pathCost p < (call modules m start i).2.1.cost →
          inner p ∈ (call modules m start i).2.2.offered) := by
  have hfound : (viterbi zeroConnector (fun _ _ => 0) ⟨[{ key := [0x61] }]⟩
      (Lattice.fill [0x61] 0 [(0, { key := [0x61] })])).map Prod.fst = some true := by decide
  obtain ⟨⟨found, m⟩, heq, rfl⟩ := Option.map_eq_some_iff.mp hfound
  exact ⟨m, heq, nBest_enumerates_in_order (plainModules zeroConnector) (fun _ _ => 0)
    { key := [0x61] } 0 [(0, { key := [0x61] })] m _ { boundaryMode := .onlyEdge } (by decide)
    (by decide) (by decide) (by decide) (by decide) (by decide)
    (costsBounded_of_zero (fun _ _ => rfl)
      (Lattice.fill_forall (P := fun n => n.wcost = 0) rfl rfl (by simp [Lattice.placed])).2)
    heq rfl⟩

/-- Candidates of the first inner segment carry the cost of that segment alone, so a later path can
give a cheaper candidate. -/
theorem firstInnerSegment_costs_fall :
    let connector : Connector := ⟨3, by decide, fun rid lid => if rid = 1 ∧ lid = 2 then 100 else 0⟩
    let modules := plainModules connector
    let g : NBestGenerator Unit := { beginNode := 0, endNode := 1, filter := () }
    let options : NBestOptions :=
      { boundaryMode := .onlyEdge, fillInnerSegmentInfo := true,
        buildFromOnlyFirstInnerSegment := true }
    ∃ m, viterbi connector (fun _ _ => 0) ⟨[{ key := [0x30, 0x31] }]⟩
        (Lattice.fill [0x30, 0x31] 0 [(0, { key := [0x30], wcost := 100 }),
          (0, { key := [0x30], wcost := 50, rid := 1 }), (1, { key := [0x31], lid := 2 })]) =
          some (true, m) ∧
      let start := reset modules m g m.bosNode m.eosNode options
      (call modules m start 0).1 = true ∧ (call modules m start 2).1 = true ∧
      (call modules m start 2).2.1.cost < (call modules m start 0).2.1.cost := by
  intro connector modules g options
  have h : (viterbi connector (fun _ _ => 0) ⟨[{ key := [0x30, 0x31] }]⟩
      (Lattice.fill [0x30, 0x31] 0 [(0, { key := [0x30], wcost := 100 }),
        (0, { key := [0x30], wcost := 50, rid := 1 }), (1, { key := [0x31], lid := 2 })])).map
      (fun (found, m) =>
        let start := reset modules m g m.bosNode m.eosNode options
        (found, (call modules m start 0).1, (call modules m start 2).1,
          (call modules m start 0).2.1.cost, (call modules m start 2).2.1.cost)) =
      some (true, true, true, 100, 50) := by decide +kernel
  obtain ⟨⟨found, m⟩, heq, hcalls⟩ := Option.map_eq_some_iff.mp h
  simp only [Prod.mk.injEq] at hcalls
  obtain ⟨rfl, h0, h2, hcost0, hcost2⟩ := hcalls
  exact ⟨m, heq, h0, h2, by rw [hcost0, hcost2]; decide⟩

end NBestGenerator

end Mozkey.Converter
