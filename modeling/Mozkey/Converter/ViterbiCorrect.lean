import Mozkey.Converter.Viterbi

/-! `Viterbi` finds the least-cost admissible node sequence.  The graph of admissible pairs is stated
over the lattice as it was filled; the labels that the passes over the positions leave in the nodes
are traced in it, and relaxed as long as no sum of costs reaches `kVeryBigCost`. -/

namespace Mozkey.Converter

open Lib

section

variable (connector : Connector) (segments : List Segment)

/-- The pairs of nodes that an admissible sequence may join: the right node begins where the left
one ends, lies in the segment where it begins, and has its constrained predecessor if it has one. -/
def Lattice.admissible (l : Lattice) : WeightedGraph Nat where
  edge u v := (u < l.size ∧ u ≠ l.eosNode) ∧ (v < l.size ∧ v ≠ l.bosNode) ∧
    (l.node u).endPos = (l.node v).beginPos ∧
    (l.node v).endPos ≤ segmentEnd 0 segments (l.node v).beginPos ∧
    ∀ p, (l.node v).constrainedPrev = some p → p = u
  weight u v := connector.getTransitionCost (l.node u).rid (l.node v).lid + (l.node v).wcost
  source := l.bosNode

def Lattice.labels (l : Lattice) : Labels Nat := ⟨fun v => (l.node v).prev, fun v => (l.node v).cost⟩

/-- A lattice and segments that `Viterbi` is meant for. -/
structure Solvable (l : Lattice) : Prop extends l.Fresh where
  key_eq : l.key = Segments.joinedKey segments
  first_key : ∃ segment ∈ segments.head?, segment.key ≠ []
  lid_lt : ∀ v, v < l.size → (l.node v).lid < 0xffff
  constrained : ∀ v p, v < l.size → (l.node v).constrainedPrev = some p →
    p < l.size ∧ (l.node p).endPos = (l.node v).beginPos

/-- The rank of a node: BOS first, then by the position where a node begins. -/
def Lattice.rank (l : Lattice) (v : Nat) : Nat :=
  if v = l.bosNode then 0 else (l.node v).beginPos + 1

/-- The same nodes at the same places, up to what a search writes. -/
structure SameNodes (l m : Lattice) : Prop where
  key : m.key = l.key
  size : m.size = l.size
  beginNodes : m.beginNodes = l.beginNodes
  endNodes : m.endNodes = l.endNodes
  node : ∀ v, (m.node v).unlabelled = (l.node v).unlabelled

end

namespace SameNodes

variable {l m : Lattice}

theorem refl (l : Lattice) : SameNodes l l := ⟨rfl, rfl, rfl, rfl, fun _ => rfl⟩

theorem trans {k : Lattice} (h : SameNodes l m) (h' : SameNodes m k) : SameNodes l k :=
  ⟨h'.key.trans h.key, h'.size.trans h.size, h'.beginNodes.trans h.beginNodes,
    h'.endNodes.trans h.endNodes, fun v => (h'.node v).trans (h.node v)⟩

variable (h : SameNodes l m) (v : Nat)
include h

theorem bosNode : m.bosNode = l.bosNode := by rw [Lattice.bosNode, Lattice.bosNode, h.endNodes]

theorem eosNode : m.eosNode = l.eosNode := by
  rw [Lattice.eosNode, Lattice.eosNode, h.beginNodes, h.key]

theorem field {α : Type} (f : Node → α) (hf : ∀ n : Node, f n.unlabelled = f n) :
    f (m.node v) = f (l.node v) := by
  rw [← hf (m.node v), h.node v, hf]

theorem label (vs : List Nat) (f : Nat → Option Nat × Int) : SameNodes l (m.label vs f) where
  key := h.key
  size := h.size
  beginNodes := h.beginNodes
  endNodes := h.endNodes
  node v := by
    rw [← h.node v]
    unfold Lattice.label
    dsimp only
    split <;> rfl

end SameNodes

section

variable {connector : Connector} {segments : List Segment} {l : Lattice}

theorem ranked_admissible (hl : l.Fresh) : (l.admissible connector segments).Ranked l.rank := by
  intro u v ⟨⟨hu, hue⟩, ⟨_, hvb⟩, hpos, _⟩
  unfold Lattice.rank
  by_cases hub : u = l.bosNode
  · simp [hub, hvb]
  · have := (hl.begin_lt_end u hu hub hue).1
    simp only [hub, hvb, if_false]
    omega

theorem mem_of_edge (hl : l.Fresh) {u v : Nat} (h : (l.admissible connector segments).edge u v) :
    u ∈ l.endNodes (l.node v).beginPos ∧ v ∈ l.beginNodes (l.node v).beginPos := by
  obtain ⟨⟨hu, hue⟩, ⟨hv, hvb⟩, hpos, _⟩ := h
  exact ⟨(hl.mem_endNodes _ u).mpr ⟨hu, hue, hpos⟩, (hl.mem_beginNodes _ v).mpr ⟨hv, hvb, rfl⟩⟩

theorem Solvable.key_pos (hl : Solvable segments l) : 0 < l.key.length := by
  obtain ⟨segment, hhead, hne⟩ := hl.first_key
  obtain ⟨rest, rfl⟩ := List.head?_eq_some_iff.mp hhead
  have := List.length_pos_iff.mpr hne
  rw [hl.key_eq, Segments.length_joinedKey_cons]
  omega

theorem Lattice.Fresh.beginNodes_length (hl : l.Fresh) :
    l.beginNodes l.key.length = [l.eosNode] := by
  have hmem : ∀ v, v ∈ l.beginNodes l.key.length ↔ v ∈ [l.eosNode] := by
    intro v
    rw [hl.mem_beginNodes, List.mem_singleton]
    constructor
    · rintro ⟨hv, hvb, hvk⟩
      by_contra hve
      have := hl.begin_lt_end v hv hvb hve
      omega
    · rintro rfl
      exact ⟨hl.eos_lt, fun h => hl.bos_ne_eos h.symm, hl.eos_pos.1⟩
  have hperm := (List.perm_ext_iff_of_nodup (hl.nodup_beginNodes _) (List.nodup_singleton _)).mpr hmem
  exact List.perm_singleton.mp hperm

/-- The lattice `m` after the passes over the positions below `k` of the lattice `l`. -/
structure Stage (connector : Connector) (segments : List Segment) (l : Lattice) (k : Nat)
    (m : Lattice) : Prop where
  same : SameNodes l m
  unlinked : ∀ v, (m.node v).next = none
  later : ∀ v, v = l.bosNode ∨ k ≤ (l.node v).beginPos → m.node v = l.node v
  traced : ∀ v u, (m.node v).prev = some u → (l.admissible connector segments).edge u v ∧
    (l.admissible connector segments).Labelled m.labels u ∧
    (m.node v).cost = (m.node u).cost + (l.admissible connector segments).weight u v
  relaxed : ∀ u v, (l.admissible connector segments).edge u v → (l.node v).beginPos < k →
    (l.admissible connector segments).Labelled m.labels u →
    (m.node u).cost + connector.getTransitionCost (l.node u).rid (l.node v).lid < kVeryBigCost →
    (m.node v).prev.isSome ∧
      (m.node v).cost ≤ (m.node u).cost + (l.admissible connector segments).weight u v

namespace Stage

variable {k : Nat} {m : Lattice}

theorem labelled_iff (v : Nat) : (l.admissible connector segments).Labelled m.labels v ↔
    v = l.bosNode ∨ (m.node v).prev.isSome := Iff.rfl

theorem fresh (hl : l.Fresh) : Stage connector segments l 0 l where
  same := SameNodes.refl l
  unlinked v := (hl.unlabelled v).2.1
  later _ _ := rfl
  traced v u h := by simp [(hl.unlabelled v).1] at h
  relaxed u v _ h := by omega

theorem toTraced (hl : l.Fresh) (hm : Stage connector segments l k m) :
    (l.admissible connector segments).Traced m.labels := by
  have hbos : m.node l.bosNode = l.node l.bosNode := hm.later _ (Or.inl rfl)
  refine ⟨?_, ?_, hm.traced⟩
  · change (m.node l.bosNode).cost = 0
    rw [hbos, (hl.unlabelled _).2.2]
  · change (m.node l.bosNode).prev = none
    rw [hbos, (hl.unlabelled _).1]

theorem before (hl : l.Fresh) (hm : Stage connector segments l k m) {v : Nat}
    (hv : (l.admissible connector segments).Labelled m.labels v) :
    v = l.bosNode ∨ (l.node v).beginPos < k := by
  by_contra h
  have hnode := hm.later v (by omega)
  rcases (labelled_iff v).mp hv with rfl | hv
  · simp at h
  · simp [hnode, (hl.unlabelled v).1] at hv

theorem advance (hl : l.Fresh) (hm : Stage connector segments l k m)
    {f : Nat → Option Nat × Int}
    (htraced : ∀ v u, v ∈ l.beginNodes k → (f v).1 = some u →
      (l.admissible connector segments).edge u v ∧
      (l.admissible connector segments).Labelled m.labels u ∧
      (f v).2 = (m.node u).cost + (l.admissible connector segments).weight u v)
    (hrelaxed : ∀ u v, v ∈ l.beginNodes k → (l.admissible connector segments).edge u v →
      (l.admissible connector segments).Labelled m.labels u →
      (m.node u).cost + connector.getTransitionCost (l.node u).rid (l.node v).lid < kVeryBigCost →
      (f v).1.isSome ∧
        (f v).2 ≤ (m.node u).cost + (l.admissible connector segments).weight u v) :
    Stage connector segments l (k + 1) (m.label (l.beginNodes k) f) := by
  have hmem : ∀ v, v ∈ l.beginNodes k → v ≠ l.bosNode ∧ (l.node v).beginPos = k := fun v hv =>
    ((hl.mem_beginNodes k v).mp hv).2
  have hin : ∀ v, v ∈ l.beginNodes k → (m.label (l.beginNodes k) f).node v =
      { m.node v with prev := (f v).1, cost := (f v).2 } := fun v hv => if_pos hv
  have hout : ∀ v, v ∉ l.beginNodes k → (m.label (l.beginNodes k) f).node v = m.node v :=
    fun v hv => if_neg hv
  -- a node with a label is not among those that the pass writes to
  have hlabelled : ∀ u, (l.admissible connector segments).Labelled m.labels u →
      u ∉ l.beginNodes k := by
    intro u hu hmem'
    have := hmem u hmem'
    have := hm.before hl hu
    omega
  have hlabelled' : ∀ u, (l.admissible connector segments).Labelled m.labels u →
      (l.admissible connector segments).Labelled (m.label (l.beginNodes k) f).labels u := by
    intro u hu
    rwa [labelled_iff, hout u (hlabelled u hu), ← labelled_iff]
  have hlabelled'' : ∀ u v, (l.admissible connector segments).edge u v →
      (l.node v).beginPos ≤ k →
      (l.admissible connector segments).Labelled (m.label (l.beginNodes k) f).labels u →
      (l.admissible connector segments).Labelled m.labels u := by
    intro u v he hk hu
    have hu' : u ∉ l.beginNodes k := by
      intro hmem'
      have hub := hmem u hmem'
      have := (hl.begin_lt_end u he.1.1 hub.1 he.1.2).1
      have := he.2.2.1
      omega
    rwa [labelled_iff, hout u hu', ← labelled_iff] at hu
  constructor
  · exact hm.same.label _ f
  · intro v
    by_cases hv : v ∈ l.beginNodes k
    · rw [hin v hv]
      exact hm.unlinked v
    · rw [hout v hv]
      exact hm.unlinked v
  · intro v hv
    have hv' : v ∉ l.beginNodes k := by
      intro hmem'
      have := hmem v hmem'
      omega
    rw [hout v hv']
    exact hm.later v (by omega)
  · intro v u huv
    by_cases hv : v ∈ l.beginNodes k
    · rw [hin v hv] at huv ⊢
      obtain ⟨he, hu, hc⟩ := htraced v u hv huv
      refine ⟨he, hlabelled' u hu, ?_⟩
      rw [hout u (hlabelled u hu)]
      exact hc
    · rw [hout v hv] at huv ⊢
      obtain ⟨he, hu, hc⟩ := hm.traced v u huv
      refine ⟨he, hlabelled' u hu, ?_⟩
      rw [hout u (hlabelled u hu)]
      exact hc
  · intro u v he hk hu
    have hu' := hlabelled'' u v he (by omega) hu
    rw [hout u (hlabelled u hu')]
    intro hbig
    by_cases hv : v ∈ l.beginNodes k
    · rw [hin v hv]
      exact hrelaxed u v hv he hu' hbig
    · rw [hout v hv]
      have hne : (l.node v).beginPos ≠ k := by
        intro heq
        have := (mem_of_edge hl he).2
        rw [heq] at this
        exact hv this
      exact hm.relaxed u v he (by omega) hu' hbig

theorem scan (hl : l.Fresh) (hm : Stage connector segments l k m) (hk : 0 < k) {v : Nat}
    (hv : v ∈ l.beginNodes k) (hcon : (l.node v).constrainedPrev = none)
    (hend : (l.node v).endPos ≤ segmentEnd 0 segments k) :
    let best := m.scanLeft connector (l.node v).lid k
    (∀ u, best.2 = some u → (l.admissible connector segments).edge u v ∧
      (l.admissible connector segments).Labelled m.labels u ∧
      best.1 + (l.node v).wcost =
        (m.node u).cost + (l.admissible connector segments).weight u v) ∧
    (∀ u, (l.admissible connector segments).edge u v →
      (l.admissible connector segments).Labelled m.labels u →
      (m.node u).cost + connector.getTransitionCost (l.node u).rid (l.node v).lid < kVeryBigCost →
      best.2.isSome ∧ best.1 + (l.node v).wcost ≤
        (m.node u).cost + (l.admissible connector segments).weight u v) := by
  obtain ⟨hvs, hvb, hvk⟩ := (hl.mem_beginNodes k v).mp hv
  have hrid : ∀ u, (m.node u).rid = (l.node u).rid := fun u => hm.same.field u Node.rid fun _ => rfl
  have hleft : ∀ u, m.leftCost connector (l.node v).lid u + (l.node v).wcost =
      (m.node u).cost + (l.admissible connector segments).weight u v := by
    intro u
    simp only [Lattice.leftCost, Lattice.admissible, hrid]
    omega
  refine ⟨fun u hu => ?_, fun u he hu hbig => ?_⟩
  · obtain ⟨hmem, hvalid, hcost, _⟩ := leastBelow_eq_some hu
    rw [hm.same.endNodes] at hmem
    obtain ⟨hus, hue, huk⟩ := (hl.mem_endNodes k u).mp hmem
    refine ⟨⟨⟨hus, hue⟩, ⟨hvs, hvb⟩, by omega, by rwa [hvk], by simp [hcon]⟩, Or.inr hvalid, ?_⟩
    rw [← hleft u, ← hcost]
    rfl
  · have hmem := (mem_of_edge hl he).1
    rw [hvk, ← hm.same.endNodes] at hmem
    have hub : u ≠ l.bosNode := by
      intro hub
      have := he.2.2.1
      have := hl.bos_pos.2
      rw [hub] at he
      have := he.2.2.1
      omega
    have hvalid : (m.node u).prev.isSome := hu.resolve_left hub
    have hle := @leastBelow_le _ (fun v => (m.node v).prev.isSome)
      (m.leftCost connector (l.node v).lid) kVeryBigCost _ u hmem hvalid
    refine ⟨?_, ?_⟩
    · by_contra hnone
      have := leastBelow_eq_none (Option.not_isSome_iff_eq_none.mp hnone)
      have hlt : m.leftCost connector (l.node v).lid u < kVeryBigCost := by
        rw [Lattice.leftCost, hrid]
        exact hbig
      omega
    · rw [← hleft u]
      exact Int.add_le_add_right hle _

theorem relabel (hl : Solvable segments l) (hm : Stage connector segments l k m)
    (hk : 0 < k) (hlen : k < l.key.length) {v : Nat} (hv : v ∈ l.beginNodes k) :
    let new := m.relabel connector k (segmentEnd 0 segments k) v
    (∀ u, new.1 = some u → (l.admissible connector segments).edge u v ∧
      (l.admissible connector segments).Labelled m.labels u ∧
      new.2 = (m.node u).cost + (l.admissible connector segments).weight u v) ∧
    (∀ u, (l.admissible connector segments).edge u v →
      (l.admissible connector segments).Labelled m.labels u →
      (m.node u).cost + connector.getTransitionCost (l.node u).rid (l.node v).lid < kVeryBigCost →
      new.1.isSome ∧ new.2 ≤ (m.node u).cost + (l.admissible connector segments).weight u v) := by
  obtain ⟨hvs, hvb, hvk⟩ := (hl.mem_beginNodes k v).mp hv
  unfold Lattice.relabel
  rw [hm.same.field v Node.endPos fun _ => rfl, hm.same.field v Node.constrainedPrev fun _ => rfl,
    hm.same.field v Node.lid fun _ => rfl, hm.same.field v Node.wcost fun _ => rfl]
  by_cases hend : (l.node v).endPos > segmentEnd 0 segments k
  · rw [if_pos hend]
    refine ⟨fun u hu => by simp at hu, fun u he => ?_⟩
    have := he.2.2.2.1
    rw [hvk] at this
    omega
  · rw [if_neg hend]
    cases hc : (l.node v).constrainedPrev with
    | none => exact hm.scan hl.toFresh hk hv hc (by omega)
    | some p =>
      obtain ⟨hps, hpk⟩ := hl.constrained v p hvs hc
      have hpb : p ≠ l.bosNode := by
        rintro rfl
        have := hl.bos_pos.2
        omega
      have hpe : p ≠ l.eosNode := by
        rintro rfl
        have := hl.eos_pos.2
        omega
      have hcost : m.leftCost connector (l.node v).lid p + (l.node v).wcost =
          (m.node p).cost + (l.admissible connector segments).weight p v := by
        simp only [Lattice.leftCost, Lattice.admissible, hm.same.field p Node.rid fun _ => rfl]
        omega
      dsimp only
      split
      · next hnone =>
        refine ⟨fun u hu => by simp at hu, fun u he hu => ?_⟩
        obtain rfl := he.2.2.2.2 p hc
        have := hu.resolve_left hpb
        simp [Lattice.labels, hnone] at this
      · next hsome =>
        refine ⟨fun u hu => ?_, fun u he _ _ => ?_⟩
        · obtain rfl := Option.some.inj hu
          refine ⟨⟨⟨hps, hpe⟩, ⟨hvs, hvb⟩, by omega, by rw [hvk]; omega, ?_⟩, ?_, hcost⟩
          · intro q hq
            exact Option.some.inj (hq.symm.trans hc)
          · exact Or.inr (Option.isSome_iff_ne_none.mpr hsome)
        · obtain rfl := he.2.2.2.2 p hc
          exact ⟨rfl, hcost.le⟩

theorem position {uninit : Nat → Int} (hl : Solvable segments l)
    (hm : Stage connector segments l k m) (hk : 0 < k) (hlen : k < l.key.length) :
    Stage connector segments l (k + 1)
      (viterbiInternal connector uninit k (segmentEnd 0 segments k) m) := by
  have hbegin := hm.same.beginNodes
  have hmem : ∀ v, v ∈ l.beginNodes k →
      v < l.size ∧ v ≠ l.bosNode ∧ (l.node v).beginPos = k ∧ k < (l.node v).endPos := by
    intro v hv
    obtain ⟨hvs, hvb, hvk⟩ := (hl.mem_beginNodes k v).mp hv
    have hve : v ≠ l.eosNode := by
      rintro rfl
      have := hl.eos_pos.1
      omega
    exact ⟨hvs, hvb, hvk, by have := (hl.begin_lt_end v hvs hvb hve).1; omega⟩
  rw [viterbiInternal_eq]
  · rw [hbegin]
    exact hm.advance hl.toFresh (fun v u hv => (hm.relabel hl hk hlen hv).1 u)
      (fun u v hv => (hm.relabel hl hk hlen hv).2 u)
  · rw [hbegin]
    exact hl.nodup_beginNodes k
  · intro v hv
    rw [hbegin] at hv
    rw [hm.same.field v Node.lid fun _ => rfl]
    exact hl.lid_lt v (hmem v hv).1
  · intro v hv
    rw [hbegin] at hv
    rw [hm.same.endNodes, hl.mem_endNodes]
    have := (hmem v hv).2.2.2
    omega
  · intro v hv p hp
    rw [hbegin] at hv ⊢
    rw [hm.same.field v Node.constrainedPrev fun _ => rfl] at hp
    have hpk := (hl.constrained v p (hmem v hv).1 hp).2
    have := (hmem v hv).2.2.1
    intro hpb
    have := (hmem p hpb).2.2.2
    omega

theorem first (hl : Solvable segments l) :
    Stage connector segments l 1 (processBOS connector (segmentEnd 0 segments 0) l) := by
  have hbos : l.bosNode ∉ l.beginNodes 0 := fun h => ((hl.mem_beginNodes 0 _).mp h).2.1 rfl
  have hcost : ∀ v, l.leftCost connector (l.node v).lid l.bosNode + (l.node v).wcost =
      (l.node l.bosNode).cost + (l.admissible connector segments).weight l.bosNode v := by
    intro v
    simp only [Lattice.leftCost, Lattice.admissible]
    omega
  -- nothing but BOS ends at the first position
  have hleft : ∀ u, u < l.size → (l.node u).endPos = 0 → u = l.bosNode := by
    intro u hu hend
    by_contra hub
    by_cases hue : u = l.eosNode
    · have := hl.key_pos
      have := hl.eos_pos.2
      rw [← hue] at this
      omega
    · have := (hl.begin_lt_end u hu hub hue).1
      omega
  rw [processBOS_eq (hl.nodup_beginNodes 0) hbos]
  refine (fresh hl.toFresh).advance hl.toFresh (fun v u hv huv => ?_) (fun u v hv he _ _ => ?_)
  · obtain ⟨hvs, hvb, hvk⟩ := (hl.mem_beginNodes 0 v).mp hv
    unfold Lattice.firstLabel at huv ⊢
    split at huv
    · simp [(hl.unlabelled v).1] at huv
    · next hend =>
      obtain rfl := Option.some.inj huv
      rw [if_neg hend]
      refine ⟨⟨⟨hl.bos_lt, hl.bos_ne_eos⟩, ⟨hvs, hvb⟩, ?_, ?_, ?_⟩, Or.inl rfl, hcost v⟩
      · rw [hl.bos_pos.2, hvk]
      · rw [hvk]
        omega
      · intro p hp
        obtain ⟨hps, hpk⟩ := hl.constrained v p hvs hp
        exact hleft p hps (hpk.trans hvk)
  · obtain ⟨_, _, hvk⟩ := (hl.mem_beginNodes 0 v).mp hv
    obtain rfl := hleft u he.1.1 (he.2.2.1.trans hvk)
    have hend := he.2.2.2.1
    rw [hvk] at hend
    rw [Lattice.firstLabel, if_neg (by omega)]
    exact ⟨rfl, (hcost v).le⟩

theorem last (hl : Solvable segments l)
    (hm : Stage connector segments l l.key.length m) :
    Stage connector segments l (l.key.length + 1) (processEOS connector m) := by
  have hk := hl.key_pos
  have hbegin : l.beginNodes l.key.length = [l.eosNode] := hl.beginNodes_length
  have heos : l.eosNode ∈ l.beginNodes l.key.length := by simp [hbegin]
  have hend : (l.node l.eosNode).endPos ≤ segmentEnd 0 segments l.key.length := by
    rw [segmentEnd_of_le _ _ _ (by simp [hl.key_eq]), hl.eos_pos.2, hl.key_eq]
    omega
  have hscan := hm.scan hl.toFresh hk heos hl.eos_unconstrained hend
  rw [processEOS_eq, hm.same.eosNode, hm.same.key, hm.same.field l.eosNode Node.lid fun _ => rfl,
    hm.same.field l.eosNode Node.wcost fun _ => rfl, Lattice.setPrevCost_eq_label, ← hbegin]
  refine hm.advance hl.toFresh (fun v u hv huv => ?_) (fun u v hv => ?_)
  · rw [hbegin, List.mem_singleton] at hv
    rw [hv]
    exact hscan.1 u huv
  · rw [hbegin, List.mem_singleton] at hv
    rw [hv]
    exact hscan.2 u

theorem range {uninit : Nat → Nat → Int} (hl : Solvable segments l) {left right : Nat}
    (hm : Stage connector segments l left m) (hleft : 0 < left) (hle : left ≤ right)
    (hright : right ≤ l.key.length)
    (hend : ∀ pos, left ≤ pos → pos < right → segmentEnd 0 segments pos = right) :
    Stage connector segments l right (viterbiRange connector uninit left right m) := by
  unfold viterbiRange
  obtain ⟨n, rfl⟩ := Nat.exists_eq_add_of_le hle
  rw [Nat.add_sub_cancel_left]
  suffices h : ∀ i, i ≤ n → Stage connector segments l (left + i) ((List.range' left i).foldl
      (fun l pos => viterbiInternal connector (uninit pos) pos (left + n) l) m) from h n (le_refl n)
  intro i hi
  induction i with
  | zero => exact hm
  | succ i ih =>
    rw [List.range'_1_concat, List.foldl_append]
    simp only [List.foldl_cons, List.foldl_nil]
    have hstep := @Stage.position _ _ _ _ _ (uninit (left + i)) hl (ih (by omega)) (by omega) (by omega)
    rwa [hend (left + i) (by omega) (by omega)] at hstep

theorem rest {uninit : Nat → Nat → Int} (hl : Solvable segments l) {left : Nat}
    (hm : Stage connector segments l left m) (hleft : 0 < left) {rest : List Segment}
    (hlen : left + (Segments.joinedKey rest).length = l.key.length)
    (hend : ∀ pos, left ≤ pos → segmentEnd 0 segments pos = segmentEnd left rest pos) :
    Stage connector segments l l.key.length (viterbiSegments connector uninit left rest m) := by
  induction rest generalizing left m with
  | nil =>
    rw [← hlen]
    exact hm
  | cons segment rest ih =>
    rw [Segments.length_joinedKey_cons] at hlen
    refine ih (hm.range hl hleft (by omega) (by omega) fun pos hpos hlt => ?_) (by omega)
      (by omega) fun pos hpos => ?_
    · rw [hend pos hpos, segmentEnd, if_pos hlt]
    · rw [hend pos (by omega), segmentEnd, if_neg (by omega)]

end Stage

theorem stage_viterbi {uninit : Nat → Nat → Int} {segments : Segments}
    (hl : Solvable segments.segments l) :
    Stage connector segments.segments l (l.key.length + 1)
      (processEOS connector
        (viterbiSegments connector uninit (segments.segment 0).key.length (segments.segments.drop 1)
          (viterbiRange connector uninit 1 (segments.segment 0).key.length
            (processBOS connector (segments.segment 0).key.length l)))) := by
  obtain ⟨segment, hhead, hne⟩ := hl.first_key
  obtain ⟨rest, hsegments⟩ : ∃ rest, segments.segments = segment :: rest :=
    List.head?_eq_some_iff.mp hhead
  have hpos := List.length_pos_iff.mpr hne
  have hseg : segments.segment 0 = segment := by simp [Segments.segment, hsegments]
  have hlen : segment.key.length + (Segments.joinedKey rest).length = l.key.length := by
    rw [hl.key_eq, hsegments, Segments.length_joinedKey_cons]
  have hin : ∀ pos, pos < segment.key.length →
      segmentEnd 0 segments.segments pos = segment.key.length := by
    intro pos h
    rw [hsegments, segmentEnd, if_pos (by omega), Nat.zero_add]
  have hout : ∀ pos, segment.key.length ≤ pos →
      segmentEnd 0 segments.segments pos = segmentEnd segment.key.length rest pos := by
    intro pos h
    rw [hsegments, segmentEnd, if_neg (by omega), Nat.zero_add]
  rw [hseg, hsegments, List.drop_one, List.tail_cons, ← hsegments]
  refine Stage.last hl (Stage.rest hl (Stage.range hl ?_ (by omega) (by omega) (by omega) ?_)
    (by omega) hlen hout)
  · have := @Stage.first connector _ _ hl
    rwa [hin 0 hpos] at this
  · intro pos _ hlt
    exact hin pos hlt

/-- The nodes `p` are the `prev` chain from EOS and the `next` chain from BOS. -/
structure Lattice.Linked (l : Lattice) (p : List Nat) : Prop where
  head : p.head? = some l.bosNode
  last : p.getLast? = some l.eosNode
  prev_bos : (l.node l.bosNode).prev = none
  next_eos : (l.node l.eosNode).next = none
  prev : p.IsChain (fun u v => (l.node v).prev = some u)
  next : p.IsChain (fun u v => (l.node u).next = some v)

theorem Lattice.labels_setNext (m : Lattice) (v : Nat) (next : Option Nat) :
    (m.setNext v next).labels = m.labels := by
  unfold labels setNext
  congr 1 <;>
  · funext x
    by_cases hx : x = v
    · simp [hx]
    · simp [hx]

theorem Lattice.sameNodes_setNext (m : Lattice) (v : Nat) (next : Option Nat) :
    SameNodes m (m.setNext v next) := by
  refine ⟨rfl, rfl, rfl, rfl, fun x => ?_⟩
  by_cases hx : x = v
  · simp [setNext, hx, Node.unlabelled]
  · simp [setNext, hx]

theorem traverse_of_none {L : Labels Nat} {n v fuel : Nat} {prev : Option Nat} {m : Lattice}
    (hp : L.pred v = none) (hm : m.labels = L) (hpos : 0 < (L.back n v).length)
    (hfuel : (L.back n v).length ≤ fuel) :
    ∃ m', traverse fuel v prev m =
        some (if L.pred v = none then prev else (L.back n v).head?, m') ∧
      m'.labels = L ∧ SameNodes m m' ∧
      (∀ x, x ∉ (L.back n v).dropLast → (m'.node x).next = (m.node x).next) ∧
      (L.back n v).IsChain (fun u w => (m'.node u).next = some w) := by
  obtain ⟨fuel, rfl⟩ : ∃ k, fuel = k + 1 := ⟨fuel - 1, by omega⟩
  have hprev : (m.node v).prev = none := by
    rw [← hp, ← hm]
    rfl
  refine ⟨m, by simp [traverse, hprev, hp], hm, SameNodes.refl m, fun _ _ => rfl, ?_⟩
  rw [L.back_of_none n hp]
  exact List.isChain_singleton v

theorem traverse_eq {g : WeightedGraph Nat} {rank : Nat → Nat} {L : Labels Nat}
    (ht : g.Traced L) (hr : g.Ranked rank) (n v : Nat) (hn : rank v ≤ n) (fuel : Nat)
    (prev : Option Nat) (m : Lattice) (hm : m.labels = L) (hfuel : (L.back n v).length ≤ fuel) :
    ∃ m', traverse fuel v prev m =
        some (if L.pred v = none then prev else (L.back n v).head?, m') ∧
      m'.labels = L ∧ SameNodes m m' ∧
      (∀ x, x ∉ (L.back n v).dropLast → (m'.node x).next = (m.node x).next) ∧
      (L.back n v).IsChain (fun u w => (m'.node u).next = some w) := by
  induction n generalizing v prev m fuel with
  | zero =>
    have hp : L.pred v = none := by
      by_contra hp
      obtain ⟨u, hu⟩ := Option.ne_none_iff_exists'.mp hp
      have := hr u v (ht.step v u hu).1
      omega
    exact traverse_of_none hp hm (List.length_pos_iff.mpr (L.back_ne_nil 0 v)) hfuel
  | succ n ih =>
    cases hp : L.pred v with
    | none =>
      have := @traverse_of_none _ (n + 1) _ _ prev _ hp hm
        (List.length_pos_iff.mpr (L.back_ne_nil (n + 1) v)) hfuel
      rwa [hp] at this
    | some u =>
      have hlt := hr u v (ht.step v u hp).1
      rw [L.back_of_some n hp] at hfuel ⊢
      rw [List.length_append, List.length_singleton] at hfuel
      obtain ⟨fuel, rfl⟩ : ∃ k, fuel = k + 1 := ⟨fuel - 1, by omega⟩
      obtain ⟨m', heq, hlabels, hsame, hout, hchain⟩ := ih u (by omega) fuel (some u)
        (m.setNext u (some v)) ((m.labels_setNext u _).trans hm) (by omega)
      -- the node before `v` is not written to again
      have hu : (m'.node u).next = some v := by
        rw [hout u fun hmem => ?_]
        · simp [Lattice.setNext]
        · have hnodup := ht.nodup_back hr n u
          rw [← List.dropLast_append_getLast? u (L.getLast?_back n u), List.nodup_append] at hnodup
          exact hnodup.2.2 u hmem u (by simp) rfl
      refine ⟨m', ?_, hlabels, (m.sameNodes_setNext u _).trans hsame, fun x hx => ?_, ?_⟩
      · have hprev : (m.node v).prev = some u := by
          rw [← hp, ← hm]
          rfl
        simp only [traverse, hprev, heq]
        cases hpu : L.pred u with
        | none => simp [L.back_of_none _ hpu]
        | some w =>
          cases hb : L.back n u with
          | nil => exact absurd hb (L.back_ne_nil n u)
          | cons a as => simp
      · rw [List.dropLast_concat] at hx
        rw [hout x fun hmem => hx (List.dropLast_subset _ hmem)]
        have hxu : x ≠ u := by
          rintro rfl
          exact hx (List.mem_of_getLast? (L.getLast?_back n x))
        simp [Lattice.setNext, hxu]
      · rw [List.isChain_append]
        refine ⟨hchain, List.isChain_singleton v, fun x hx y hy => ?_⟩
        rw [L.getLast?_back, Option.mem_some_iff] at hx
        rw [List.head?_cons, Option.mem_some_iff] at hy
        rw [← hx, ← hy, hu]

theorem linkBestPath_eq {g : WeightedGraph Nat} {rank : Nat → Nat} {m : Lattice}
    (ht : g.Traced m.labels) (hr : g.Ranked rank) (hsource : g.source = m.bosNode)
    (hne : m.bosNode ≠ m.eosNode) (hlt : ∀ v, g.Labelled m.labels v → v < m.size)
    (heos : m.eosNode < m.size) (hnext : ∀ v, (m.node v).next = none) :
    ∃ b m', linkBestPath m = some (b, m') ∧ SameNodes m m' ∧ m'.labels = m.labels ∧
      (b = true ↔ g.Labelled m.labels m.eosNode) ∧
      (b = true → m'.Linked (m.labels.back (rank m.eosNode) m.eosNode)) := by
  have hlength : (m.labels.back (rank m.eosNode) m.eosNode).length ≤ m.size + 1 := by
    have := ht.length_back_le hr
      (fun v hv => List.mem_range.mpr (hlt v hv)) (rank m.eosNode) m.eosNode
      (List.mem_range.mpr heos)
    rw [List.length_range] at this
    omega
  obtain ⟨m', heq, hlabels, hsame, hout, hchain⟩ := traverse_eq ht hr (rank m.eosNode) m.eosNode
    (le_refl _) (m.size + 1) none m rfl hlength
  refine ⟨_, m', by rw [linkBestPath, heq]; rfl, hsame, hlabels, ?_, ?_⟩
  · cases hp : m.labels.pred m.eosNode with
    | none =>
      simp [WeightedGraph.Labelled, hp, hsource, hne.symm]
    | some u =>
      have hv : g.Labelled m.labels m.eosNode := Or.inr (by simp [hp])
      have hhead := (ht.walk_back hr (rank m.eosNode) m.eosNode (le_refl _) hv).head?
      simp [hv, hhead, hsource]
  · intro hb
    cases hp : m.labels.pred m.eosNode with
    | none => simp [hp] at hb
    | some u =>
      have hv : g.Labelled m.labels m.eosNode := Or.inr (by simp [hp])
      have hhead := (ht.walk_back hr (rank m.eosNode) m.eosNode (le_refl _) hv).head?
      have hpred : ∀ v, (m'.node v).prev = m.labels.pred v := fun v => by rw [← hlabels]; rfl
      refine ⟨?_, ?_, ?_, ?_, ?_, hchain⟩
      · rw [hhead, hsource, hsame.bosNode]
      · rw [m.labels.getLast?_back, hsame.eosNode]
      · rw [hpred, hsame.bosNode, ← hsource, ht.pred_source]
      · rw [hsame.eosNode, hout _ fun hmem => ?_, hnext]
        have hnodup := ht.nodup_back hr (rank m.eosNode) m.eosNode
        rw [← List.dropLast_append_getLast? _ (m.labels.getLast?_back (rank m.eosNode) m.eosNode),
          List.nodup_append] at hnodup
        exact hnodup.2.2 _ hmem _ (by simp) rfl
      · simp only [hpred]
        exact m.labels.isChain_back _ _

variable (connector segments) in
/-- What a search leaves in the lattice `m` it got as `l`, when it returns `found`: labels that are
traced in the admissible graph, and the chain of the predecessors of EOS. -/
structure Searched (l : Lattice) (found : Bool) (m : Lattice) : Prop where
  same : SameNodes l m
  traced : (l.admissible connector segments).Traced m.labels
  found_iff : found = true ↔ (l.admissible connector segments).Labelled m.labels l.eosNode
  linked : found = true → m.Linked (m.labels.back (l.rank l.eosNode) l.eosNode)

theorem Stage.searched (hl : Solvable segments l) {m : Lattice}
    (hs : Stage connector segments l (l.key.length + 1) m) :
    ∃ b m', linkBestPath m = some (b, m') ∧ m'.labels = m.labels ∧
      Searched connector segments l b m' := by
  have hr := @ranked_admissible connector segments _ hl.toFresh
  have ht := hs.toTraced hl.toFresh
  have hlt : ∀ v, (l.admissible connector segments).Labelled m.labels v → v < m.size := by
    rintro v (rfl | hv)
    · exact hs.same.size ▸ hl.bos_lt
    · obtain ⟨u, hu⟩ := Option.isSome_iff_exists.mp hv
      exact hs.same.size ▸ (ht.step v u hu).1.2.1.1
  obtain ⟨b, m', heq, hsame, hlabels, hiff, hlinked⟩ := linkBestPath_eq ht hr
    hs.same.bosNode.symm (by rw [hs.same.bosNode, hs.same.eosNode]; exact hl.bos_ne_eos) hlt
    (by rw [hs.same.eosNode, hs.same.size]; exact hl.eos_lt) hs.unlinked
  rw [hs.same.eosNode] at hiff hlinked
  refine ⟨b, m', heq, hlabels, hs.same.trans hsame, hlabels ▸ ht, hlabels ▸ hiff, ?_⟩
  rw [hlabels]
  exact hlinked

theorem viterbi_searched (connector : Connector) (uninit : Nat → Nat → Int) {segments : Segments}
    (hl : Solvable segments.segments l) :
    ∃ b m, viterbi connector uninit segments l = some (b, m) ∧
      Searched connector segments.segments l b m := by
  obtain ⟨b, m, heq, _, hs⟩ := (stage_viterbi hl).searched hl
  exact ⟨b, m, heq, hs⟩

variable (connector segments) in
/-- No sum of costs along an admissible sequence, taken up to a transition, reaches
`kVeryBigCost`. -/
def Lattice.CostsBounded (l : Lattice) : Prop :=
  ∀ u p c v, (l.admissible connector segments).Walk u p c →
    (l.admissible connector segments).edge u v →
    c + connector.getTransitionCost (l.node u).rid (l.node v).lid < kVeryBigCost

theorem Stage.toRelaxed (hl : l.Fresh) {m : Lattice}
    (hs : Stage connector segments l (l.key.length + 1) m)
    (hcost : l.CostsBounded connector segments) :
    (l.admissible connector segments).Relaxed m.labels := by
  refine (hs.toTraced hl).relaxed_of_bounded (ranked_admissible hl) hcost fun u v he hu hbig => ?_
  have hk : (l.node v).beginPos < l.key.length + 1 := by
    by_cases hve : v = l.eosNode
    · rw [hve, hl.eos_pos.1]
      omega
    · have := hl.begin_lt_end v he.2.1.1 he.2.1.2 hve
      omega
  obtain ⟨hv, hle⟩ := hs.relaxed u v he hk hu hbig
  exact ⟨Or.inr hv, hle⟩

/-- `Viterbi` returns true when there is an admissible sequence from BOS to EOS, and then the chain
it links is one of least cost. -/
theorem viterbi_solves (uninit : Nat → Nat → Int) {segments : Segments}
    (hl : Solvable segments.segments l) (hcost : l.CostsBounded connector segments.segments) :
    ∃ b m, viterbi connector uninit segments l = some (b, m) ∧
      Searched connector segments.segments l b m ∧
      (l.admissible connector segments.segments).Relaxed m.labels := by
  have hstage := @stage_viterbi connector _ uninit _ hl
  obtain ⟨b, m, heq, hlabels, hs⟩ := hstage.searched hl
  exact ⟨b, m, heq, hs, hlabels ▸ hstage.toRelaxed hl.toFresh hcost⟩

theorem solvable_fill {segments : List Segment} {key : Bytes} {bosId : Nat}
    {nodes : List (Nat × Node)} (hkey : key = Segments.joinedKey segments)
    (hfirst : ∃ segment ∈ segments.head?, segment.key ≠ []) (hlen : key.length < 2 ^ 16)
    (hpos : ∀ p ∈ nodes, p.1 < key.length) (hnodes : ∀ p ∈ nodes, p.2.key ≠ [])
    (hlid : ∀ p ∈ nodes, p.2.lid < 0xffff)
    (hcon : ∀ p ∈ nodes, ∀ c, p.2.constrainedPrev = some c → c < nodes.length + 2 ∧
      ((Lattice.fill key bosId nodes).node c).endPos = p.1) :
    Solvable segments (Lattice.fill key bosId nodes) := by
  have hne : key ≠ [] := by
    obtain ⟨segment, hhead, hne⟩ := hfirst
    obtain ⟨rest, rfl⟩ := List.head?_eq_some_iff.mp hhead
    rw [hkey]
    simp [Segments.joinedKey, hne]
  have hsize := (@Lattice.fill_forall key bosId nodes
    (fun _ => True) trivial trivial fun _ _ => trivial).1
  refine ⟨Lattice.fresh_fill hne hlen hpos hnodes, ?_, hfirst, ?_, ?_⟩
  · rw [Lattice.fill_key, hkey]
  · exact (Lattice.fill_forall (P := fun n => n.lid < 0xffff) (by simp [Lattice.initBOSNode])
      (by simp [Lattice.initEOSNode]) hlid).2
  · refine fun v c hv => (Lattice.fill_forall (P := fun n => ∀ c,
      n.constrainedPrev = some c → c < (Lattice.fill key bosId nodes).size ∧
        ((Lattice.fill key bosId nodes).node c).endPos = n.beginPos) ?_ ?_ ?_).2 v hv c
    · simp [Lattice.initBOSNode]
    · simp [Lattice.initEOSNode]
    · intro p hp c hc
      have := hpos p hp
      rw [hsize, Lattice.placed, Lattice.toPos_of_lt (by omega)]
      exact hcon p hp c hc

/-- `Viterbi` on a filled lattice returns true exactly when there is an admissible sequence; EOS then
has the least cost of one, and the `prev` chain from EOS and the `next` chain from BOS are the same
sequence of that cost. -/
theorem viterbi_finds_least_walk (connector : Connector) (uninit : Nat → Nat → Int)
    (segments : Segments) (key : Bytes) (bosId : Nat) (nodes : List (Nat × Node))
    (hkey : key = Segments.joinedKey segments.segments)
    (hfirst : ∃ segment ∈ segments.segments.head?, segment.key ≠ []) (hlen : key.length < 2 ^ 16)
    (hpos : ∀ p ∈ nodes, p.1 < key.length) (hnodes : ∀ p ∈ nodes, p.2.key ≠ [])
    (hlid : ∀ p ∈ nodes, p.2.lid < connector.size)
    (hcon : ∀ p ∈ nodes, ∀ c, p.2.constrainedPrev = some c → c < nodes.length + 2 ∧
      ((Lattice.fill key bosId nodes).node c).endPos = p.1)
    (hcost : (Lattice.fill key bosId nodes).CostsBounded connector segments.segments) :
    let l := Lattice.fill key bosId nodes
    let g := l.admissible connector segments.segments
    ∃ found m, viterbi connector uninit segments l = some (found, m) ∧
      (found = true ↔ ∃ p c, g.Walk l.eosNode p c) ∧
      (found = true →
        IsLeast {c | ∃ p, g.Walk l.eosNode p c} (m.node m.eosNode).cost ∧
        ∃ p, g.Walk l.eosNode p (m.node m.eosNode).cost ∧ m.Linked p) := by
  intro l g
  have hl : Solvable segments.segments l := solvable_fill hkey hfirst hlen hpos hnodes
    (fun p hp => by have := hlid p hp; have := connector.size_le; omega) hcon
  have hr := @ranked_admissible connector segments.segments _ hl.toFresh
  obtain ⟨found, m, heq, hs, hrelaxed⟩ := viterbi_solves uninit hl hcost
  have heos : m.eosNode = l.eosNode := hs.same.eosNode
  refine ⟨found, m, heq, hs.found_iff.trans (hrelaxed.labelled_iff hr _), fun hfound => ?_⟩
  have hv := hs.found_iff.mp hfound
  rw [heos]
  exact ⟨hrelaxed.isLeast hr hv, _, hs.traced.walk_back hr _ _ (le_refl _) hv, hs.linked hfound⟩

theorem costsBounded_of_zero {segments : List Segment}
    (htrans : ∀ rid lid, connector.getTransitionCost rid lid = 0)
    (hw : ∀ v, v < l.size → (l.node v).wcost = 0) : l.CostsBounded connector segments := by
  intro u p c v h _
  have hc : ∀ {u p c}, (l.admissible connector segments).Walk u p c → c = 0 := by
    intro u p c h
    induction h with
    | source => rfl
    | snoc _ he ih => simp [ih, Lattice.admissible, htrans, hw _ he.2.1.1]
  rw [hc h, htrans]
  decide

end

/-- A matrix of one id, at no cost. -/
def zeroConnector : Connector := ⟨1, by decide, fun _ _ => 0⟩

theorem viterbi_finds_least_walk_one_node :
    let segments : Segments := ⟨[{ key := [0x61] }]⟩
    let l := Lattice.fill [0x61] 0 [(0, { key := [0x61] })]
    let g := l.admissible zeroConnector segments.segments
    ∃ found m, viterbi zeroConnector (fun _ _ => 0) segments l = some (found, m) ∧
      (found = true ↔ ∃ p c, g.Walk l.eosNode p c) ∧
      (found = true →
        IsLeast {c | ∃ p, g.Walk l.eosNode p c} (m.node m.eosNode).cost ∧
        ∃ p, g.Walk l.eosNode p (m.node m.eosNode).cost ∧ m.Linked p) :=
  viterbi_finds_least_walk zeroConnector (fun _ _ => 0) ⟨[{ key := [0x61] }]⟩ [0x61] 0
    [(0, { key := [0x61] })] (by decide) ⟨_, rfl, by decide⟩ (by decide) (by decide) (by decide)
    (by decide) (by simp) (costsBounded_of_zero (fun _ _ => rfl)
      (Lattice.fill_forall (P := fun n => n.wcost = 0) rfl rfl (by simp [Lattice.placed])).2)

/-- With an empty first segment BOS has no right nodes, and the second segment skips BOS as a left
node, because BOS has no predecessor. -/
theorem viterbi_fails_behind_empty_first_segment :
    let segments : Segments := ⟨[{}, { key := [0x61] }]⟩
    let l := Lattice.fill [0x61] 0 [(0, { key := [0x61] })]
    let g := l.admissible zeroConnector segments.segments
    Segments.joinedKey segments.segments = l.key ∧
      l.CostsBounded zeroConnector segments.segments ∧
      (viterbi zeroConnector (fun _ _ => 0) segments l).map Prod.fst = some false ∧
      ∃ p c, g.Walk l.eosNode p c := by
  have hnodes := (@Lattice.fill_forall [0x61] 0
    [(0, { key := [0x61] })] (fun n => n.wcost = 0 ∧ n.constrainedPrev = none)
    ⟨rfl, rfl⟩ ⟨rfl, rfl⟩ (by simp [Lattice.placed])).2
  refine ⟨rfl, costsBounded_of_zero (fun _ _ => rfl) fun v hv => (hnodes v hv).1, by decide,
    _, _, .snoc (.snoc .source (v := 2) ?_) ?_⟩
  · refine ⟨by decide, by decide, by decide, by decide, fun p hp => ?_⟩
    exact absurd (hp.symm.trans (hnodes 2 (by decide)).2) (Option.some_ne_none p)
  · refine ⟨by decide, by decide, by decide, by decide, fun p hp => ?_⟩
    exact absurd (hp.symm.trans (hnodes 1 (by decide)).2) (Option.some_ne_none p)

end Mozkey.Converter
