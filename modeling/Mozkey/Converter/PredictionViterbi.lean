import Mathlib
import Mozkey.Converter.ViterbiCorrect

/-! `ImmutableConverter::PredictionViterbi`: at each position the left nodes are contracted by right
id and the right nodes by left id.  It leaves the costs that `Viterbi` leaves. -/

namespace Mozkey.Converter

open Lib

/-- A cost and the node it comes from, by the id of a part of speech, in the order of the ids. -/
abbrev BestMap := List (Nat × (Int × Option Nat))

def kIntMax : Int := 2147483647

/-- `std::lower_bound` on a sorted vector: what is before the iterator, and what is from it on. -/
def lowerBound (bestMap : BestMap) (id : Nat) : BestMap × BestMap :=
  (bestMap.takeWhile fun entry => entry.1 < id, bestMap.dropWhile fun entry => entry.1 < id)

section

variable (connector : Connector) (l : Lattice)

def insertLeft (lbest : BestMap) (lnode : Nat) : BestMap :=
  let rid := (l.node lnode).rid
  let cost := (l.node lnode).cost
  match lowerBound lbest rid with
  | (before, []) => before ++ [(rid, (cost, some lnode))]
  | (before, (id, best) :: after) =>
    if id ≠ rid then before ++ (rid, (cost, some lnode)) :: (id, best) :: after
    else if cost < best.1 then before ++ (id, (cost, some lnode)) :: after
    else lbest

def insertRight (calcEndPos : Nat) (rbest : BestMap) (rnode : Nat) : BestMap :=
  if (l.node rnode).endPos > calcEndPos then rbest
  else
    let lid := (l.node rnode).lid
    match lowerBound rbest lid with
    | (before, []) => before ++ [(lid, (kIntMax, none))]
    | (before, (id, best) :: after) =>
      if id ≠ lid then before ++ (lid, (kIntMax, none)) :: (id, best) :: after else rbest

def connectEntry (rbest : BestMap) (liter : Nat × (Int × Option Nat)) : BestMap :=
  rbest.map fun riter =>
    let cost := liter.2.1 + connector.getTransitionCost liter.1 riter.1
    if cost < riter.2.1 then (riter.1, (cost, liter.2.2)) else riter

def assignBest (calcEndPos : Nat) (rbest : BestMap) (l : Lattice) (rnode : Nat) : Lattice :=
  if (l.node rnode).endPos > calcEndPos then l
  else
    match (lowerBound rbest (l.node rnode).lid).2 with
    | [] => l
    | (id, (cost, node)) :: _ =>
      if id ≠ (l.node rnode).lid ∨ node = none then l
      else l.setPrevCost rnode node (cost + (l.node rnode).wcost)

def predictionPosition (calcEndPos : Nat) (l : Lattice) (pos : Nat) : Lattice :=
  let lbest := (l.endNodes pos).foldl (insertLeft l) []
  if lbest = [] then l
  else
    let rbest := (l.beginNodes pos).foldl (insertRight l calcEndPos) []
    if rbest = [] then l
    else
      let rbest := lbest.foldl (connectEntry connector) rbest
      (l.beginNodes pos).foldl (assignBest calcEndPos rbest) l

def predictionViterbiInternal (calcBeginPos calcEndPos : Nat) (l : Lattice) : Lattice :=
  (List.range' calcBeginPos (calcEndPos + 1 - calcBeginPos)).foldl
    (predictionPosition connector calcEndPos) l

def predictionViterbi (segments : Segments) (l : Lattice) : Option (Bool × Lattice) :=
  let keyLength := l.key.length
  let historyLength := segments.historySegments.foldl (fun n segment => n + segment.key.length) 0
  let l := predictionViterbiInternal connector 0 historyLength l
  let l := predictionViterbiInternal connector historyLength keyLength l
  linkBestPath l

end

section BestMap

/-- The entries of a map are in the order of their ids, each id once. -/
def BestMap.Ordered (m : BestMap) : Prop := m.Pairwise (fun a b => a.1 < b.1)

variable {m : BestMap} {id : Nat}

theorem lowerBound_append (m : BestMap) (id : Nat) :
    (lowerBound m id).1 ++ (lowerBound m id).2 = m := List.takeWhile_append_dropWhile

theorem lt_of_mem_lowerBound {entry : Nat × (Int × Option Nat)}
    (h : entry ∈ (lowerBound m id).1) : entry.1 < id := by
  simpa using List.mem_takeWhile_imp h

theorem le_of_mem_lowerBound (hm : BestMap.Ordered m) {entry : Nat × (Int × Option Nat)}
    (h : entry ∈ (lowerBound m id).2) : id ≤ entry.1 := by
  have hm' : BestMap.Ordered (lowerBound m id).2 := hm.sublist (List.dropWhile_sublist _)
  cases ha : (lowerBound m id).2 with
  | nil => simp [ha] at h
  | cons first after =>
    have hfirst : id ≤ first.1 := by
      have := List.head?_dropWhile_not (fun entry : Nat × (Int × Option Nat) => entry.1 < id) m
      rw [show m.dropWhile _ = first :: after from ha] at this
      simpa using this
    rw [ha] at h hm'
    rcases List.mem_cons.mp h with rfl | h
    · exact hfirst
    · have := List.rel_of_pairwise_cons hm' h
      omega

theorem ordered_insert (hm : BestMap.Ordered m) (best : Int × Option Nat)
    {before after : BestMap} (heq : lowerBound m id = (before, after))
    (hne : ∀ entry ∈ after.head?, entry.1 ≠ id) :
    BestMap.Ordered (before ++ (id, best) :: after) := by
  have happend := lowerBound_append m id
  have hlt : ∀ entry ∈ before, entry.1 < id := fun entry h =>
    lt_of_mem_lowerBound (m := m) (by rwa [heq])
  have hle : ∀ entry ∈ after, id ≤ entry.1 := fun entry h =>
    le_of_mem_lowerBound hm (by rwa [heq])
  rw [heq] at happend
  rw [BestMap.Ordered, ← happend, List.pairwise_append] at hm
  have hgt : ∀ entry ∈ after, id < entry.1 := by
    cases after with
    | nil => simp
    | cons first after =>
      have hfirst := hne first rfl
      have hfirst' := hle first (by simp)
      intro entry h
      rcases List.mem_cons.mp h with rfl | h
      · omega
      · have := List.rel_of_pairwise_cons hm.2.1 h
        omega
  refine List.pairwise_append.mpr ⟨hm.1, List.pairwise_cons.mpr ⟨hgt, hm.2.1⟩, ?_⟩
  intro a ha b hb
  have := hlt a ha
  rcases List.mem_cons.mp hb with rfl | hb
  · exact this
  · have := hgt b hb
    omega

theorem lowerBound_of_mem (hm : BestMap.Ordered m) {best : Int × Option Nat}
    (h : (id, best) ∈ m) : ∃ before after, lowerBound m id = (before, (id, best) :: after) := by
  have happend := lowerBound_append m id
  have hmem : (id, best) ∈ (lowerBound m id).2 := by
    rw [← happend, List.mem_append] at h
    refine h.resolve_left fun h => ?_
    have := lt_of_mem_lowerBound h
    simp at this
  cases hs : lowerBound m id with
  | mk before after =>
    rw [hs] at hmem happend
    cases after with
    | nil => simp at hmem
    | cons first after =>
      have hfirst : id ≤ first.1 := le_of_mem_lowerBound hm (m := m) (by simp [hs])
      rcases List.mem_cons.mp hmem with rfl | hmem
      · exact ⟨before, after, rfl⟩
      · rw [BestMap.Ordered, ← happend, List.pairwise_append] at hm
        have := List.rel_of_pairwise_cons hm.2.1 hmem
        simp at this
        omega

end BestMap

section

variable {connector : Connector} {l : Lattice}

/-- The map of the left nodes: for each right id the first node of least cost. -/
structure LeftBest (l : Lattice) (lnodes : List Nat) (lbest : BestMap) : Prop where
  ordered : BestMap.Ordered lbest
  sound : ∀ entry ∈ lbest, ∃ u ∈ lnodes, entry = ((l.node u).rid, ((l.node u).cost, some u))
  complete : ∀ u ∈ lnodes, ∃ entry ∈ lbest, entry.1 = (l.node u).rid ∧ entry.2.1 ≤ (l.node u).cost

theorem LeftBest.add {lnodes : List Nat} {lbest before after : BestMap}
    (h : LeftBest l lnodes lbest) (v : Nat)
    (hs : lowerBound lbest (l.node v).rid = (before, after))
    (hne : ∀ entry ∈ after.head?, entry.1 ≠ (l.node v).rid) :
    LeftBest l (lnodes ++ [v])
      (before ++ ((l.node v).rid, ((l.node v).cost, some v)) :: after) := by
  have happend := lowerBound_append lbest (l.node v).rid
  rw [hs] at happend
  refine ⟨ordered_insert h.ordered _ hs hne, fun entry he => ?_, fun u hu => ?_⟩
  · simp only [List.mem_append, List.mem_cons] at he
    rcases he with he | rfl | he
    · obtain ⟨u, hu, heq⟩ := h.sound entry (by simp [← happend, he])
      exact ⟨u, by simp [hu], heq⟩
    · exact ⟨v, by simp, rfl⟩
    · obtain ⟨u, hu, heq⟩ := h.sound entry (by simp [← happend, he])
      exact ⟨u, by simp [hu], heq⟩
  · rcases List.mem_append.mp hu with hu | hu
    · obtain ⟨entry, he, hid, hle⟩ := h.complete u hu
      rw [← happend, List.mem_append] at he
      exact ⟨entry, by simp only [List.mem_append, List.mem_cons]; tauto, hid, hle⟩
    · rw [List.mem_singleton.mp hu]
      exact ⟨_, List.mem_append_right _ List.mem_cons_self, rfl, le_refl _⟩

theorem LeftBest.insert {lnodes : List Nat} {lbest : BestMap} (h : LeftBest l lnodes lbest)
    (v : Nat) : LeftBest l (lnodes ++ [v]) (insertLeft l lbest v) := by
  have happend := lowerBound_append lbest (l.node v).rid
  unfold insertLeft
  dsimp only
  cases hs : lowerBound lbest (l.node v).rid with
  | mk before after =>
    rw [hs] at happend
    cases after with
    | nil => exact h.add v hs (by simp)
    | cons first after =>
      obtain ⟨id, best⟩ := first
      dsimp only
      by_cases hid : id = (l.node v).rid
      · have hfirst : (id, best) ∈ lbest := by simp [← happend]
        rw [if_neg (not_not.mpr hid)]
        split
        · next hlt =>
          refine ⟨?_, fun entry he => ?_, fun u hu => ?_⟩
          · have hord := h.ordered
            rw [← happend] at hord
            simp only [BestMap.Ordered, List.pairwise_append, List.pairwise_cons,
              List.mem_cons] at hord ⊢
            refine ⟨hord.1, hord.2.1, fun a ha b hb => ?_⟩
            rcases hb with rfl | hb
            · exact hord.2.2 a ha (id, best) (Or.inl rfl)
            · exact hord.2.2 a ha b (Or.inr hb)
          · simp only [List.mem_append, List.mem_cons] at he
            rcases he with he | rfl | he
            · obtain ⟨u, hu, heq⟩ := h.sound entry (by simp [← happend, he])
              exact ⟨u, by simp [hu], heq⟩
            · exact ⟨v, by simp, by rw [hid]⟩
            · obtain ⟨u, hu, heq⟩ := h.sound entry (by simp [← happend, he])
              exact ⟨u, by simp [hu], heq⟩
          · rcases List.mem_append.mp hu with hu | hu
            · obtain ⟨entry, he, hid', hle⟩ := h.complete u hu
              rw [← happend, List.mem_append, List.mem_cons] at he
              rcases he with he | rfl | he
              · exact ⟨entry, by simp [he], hid', hle⟩
              · exact ⟨(id, ((l.node v).cost, some v)), by simp, hid', hlt.le.trans hle⟩
              · exact ⟨entry, by simp [he], hid', hle⟩
            · rw [List.mem_singleton.mp hu]
              exact ⟨(id, ((l.node v).cost, some v)), by simp, hid, le_refl _⟩
        · next hge =>
          refine ⟨h.ordered, fun entry he => ?_, fun u hu => ?_⟩
          · obtain ⟨u, hu, heq⟩ := h.sound entry he
            exact ⟨u, by simp [hu], heq⟩
          · rcases List.mem_append.mp hu with hu | hu
            · exact h.complete u hu
            · rw [List.mem_singleton.mp hu]
              exact ⟨(id, best), hfirst, hid, not_lt.mp hge⟩
      · rw [if_pos hid]
        exact h.add v hs (by simpa using hid)

theorem leftBest_foldl (lnodes : List Nat) :
    LeftBest l lnodes (lnodes.foldl (insertLeft l) []) := by
  induction lnodes using List.reverseRecOn with
  | nil => exact ⟨List.Pairwise.nil, by simp, by simp⟩
  | append_singleton lnodes v ih =>
    rw [List.foldl_append]
    exact ih.insert v

/-- The left ids of the right nodes that end early enough, without a left node yet. -/
structure RightIds (l : Lattice) (calcEndPos : Nat) (rnodes : List Nat) (rbest : BestMap) : Prop where
  ordered : BestMap.Ordered rbest
  empty : ∀ entry ∈ rbest, entry.2 = (kIntMax, none)
  mem : ∀ v ∈ rnodes, (l.node v).endPos ≤ calcEndPos → ((l.node v).lid, (kIntMax, none)) ∈ rbest

theorem RightIds.add {calcEndPos : Nat} {rnodes : List Nat} {rbest before after : BestMap}
    (h : RightIds l calcEndPos rnodes rbest) (v : Nat)
    (hs : lowerBound rbest (l.node v).lid = (before, after))
    (hne : ∀ entry ∈ after.head?, entry.1 ≠ (l.node v).lid) :
    RightIds l calcEndPos (rnodes ++ [v])
      (before ++ ((l.node v).lid, (kIntMax, none)) :: after) := by
  have happend := lowerBound_append rbest (l.node v).lid
  rw [hs] at happend
  refine ⟨ordered_insert h.ordered _ hs hne, fun entry he => ?_, fun u hu hend => ?_⟩
  · simp only [List.mem_append, List.mem_cons] at he
    rcases he with he | rfl | he
    · exact h.empty entry (by simp [← happend, he])
    · rfl
    · exact h.empty entry (by simp [← happend, he])
  · rcases List.mem_append.mp hu with hu | hu
    · have hmem := h.mem u hu hend
      rw [← happend, List.mem_append] at hmem
      simp only [List.mem_append, List.mem_cons]
      tauto
    · rw [List.mem_singleton.mp hu]
      simp

theorem rightIds_foldl (calcEndPos : Nat) (rnodes : List Nat) :
    RightIds l calcEndPos rnodes (rnodes.foldl (insertRight l calcEndPos) []) := by
  induction rnodes using List.reverseRecOn with
  | nil => exact ⟨List.Pairwise.nil, by simp, by simp⟩
  | append_singleton rnodes v ih =>
    rw [List.foldl_append, List.foldl_cons, List.foldl_nil]
    generalize List.foldl _ _ rnodes = rbest at ih
    have happend := lowerBound_append rbest (l.node v).lid
    unfold insertRight
    split
    · next hend =>
      refine ⟨ih.ordered, ih.empty, fun u hu hu' => ?_⟩
      rcases List.mem_append.mp hu with hu | hu
      · exact ih.mem u hu hu'
      · rw [List.mem_singleton.mp hu] at hu'
        omega
    · dsimp only
      cases hs : lowerBound rbest (l.node v).lid with
      | mk before after =>
        rw [hs] at happend
        cases after with
        | nil => exact ih.add v hs (by simp)
        | cons first after =>
          obtain ⟨id, best⟩ := first
          dsimp only
          by_cases hid : id = (l.node v).lid
          · rw [if_neg (not_not.mpr hid)]
            have hfirst : (id, best) ∈ rbest := by simp [← happend]
            refine ⟨ih.ordered, ih.empty, fun u hu hend => ?_⟩
            rcases List.mem_append.mp hu with hu | hu
            · exact ih.mem u hu hend
            · rw [List.mem_singleton.mp hu, ← hid, ← ih.empty _ hfirst]
              exact hfirst
          · rw [if_pos hid]
            exact ih.add v hs (by simpa using hid)

variable (connector) in
/-- The value of a right entry after the left entries `lbest`: the first least cost below
`INT_MAX`. -/
def bestEntry (lbest : BestMap) (lid : Nat) : Int × Option Nat :=
  let best := leastBelow (fun _ => true)
    (fun entry : Nat × (Int × Option Nat) => entry.2.1 + connector.getTransitionCost entry.1 lid)
    kIntMax lbest
  (best.1, best.2.bind fun entry => entry.2.2)

theorem foldl_connectEntry (lbest rbest : BestMap)
    (h : ∀ entry ∈ rbest, entry.2 = (kIntMax, none)) :
    lbest.foldl (connectEntry connector) rbest =
      rbest.map fun entry => (entry.1, bestEntry connector lbest entry.1) := by
  induction lbest using List.reverseRecOn with
  | nil =>
    refine (List.map_id rbest).symm.trans (List.map_congr_left fun entry he => ?_)
    exact Prod.ext rfl (h entry he)
  | append_singleton lbest entry ih =>
    rw [List.foldl_append, ih]
    simp only [List.foldl_cons, List.foldl_nil, connectEntry, List.map_map]
    refine List.map_congr_left fun riter _ => ?_
    simp only [Function.comp_apply, bestEntry, leastBelow_snoc, true_and]
    split <;> rfl

variable (connector) in
/-- The label that a pass over `pos` gives to the right node `v`. -/
def predictedLabel (l : Lattice) (calcEndPos pos v : Nat) : Option Nat × Int :=
  if (l.node v).endPos > calcEndPos then ((l.node v).prev, (l.node v).cost)
  else
    match bestEntry connector ((l.endNodes pos).foldl (insertLeft l) []) (l.node v).lid with
    | (_, none) => ((l.node v).prev, (l.node v).cost)
    | (cost, some u) => (some u, cost + (l.node v).wcost)

theorem Lattice.setPrevCost_self (m : Lattice) (v : Nat) :
    m.setPrevCost v (m.node v).prev (m.node v).cost = m := by
  simp [setPrevCost]

theorem Lattice.label_of_same {vs : List Nat} {f : Nat → Option Nat × Int}
    (h : ∀ v ∈ vs, f v = ((l.node v).prev, (l.node v).cost)) : l.label vs f = l := by
  have hnode : (l.label vs f).node = l.node := by
    funext v
    by_cases hv : v ∈ vs
    · simp [label, hv, h v hv]
    · simp [label, hv]
  calc l.label vs f = { l with node := (l.label vs f).node } := rfl
    _ = l := by rw [hnode]

theorem Lattice.label_label (vs : List Nat) (f g : Nat → Option Nat × Int) :
    (l.label vs f).label vs g = l.label vs g := by
  simp only [label, mk.injEq, true_and, and_true]
  funext v
  by_cases hv : v ∈ vs
  · simp [hv]
  · simp [hv]

theorem predictionPosition_eq (calcEndPos pos : Nat) (hnodup : (l.beginNodes pos).Nodup) :
    predictionPosition connector calcEndPos l pos =
      l.label (l.beginNodes pos) (predictedLabel connector l calcEndPos pos) := by
  unfold predictionPosition
  have hright := rightIds_foldl (l := l) calcEndPos (l.beginNodes pos)
  dsimp only
  generalize hlbest : (l.endNodes pos).foldl (insertLeft l) [] = lbest
  generalize hrbest : (l.beginNodes pos).foldl (insertRight l calcEndPos) [] = rbest at hright
  split
  · next hnil =>
    refine (Lattice.label_of_same fun v _ => ?_).symm
    simp [predictedLabel, hlbest, hnil, bestEntry, leastBelow]
  · split
    · next hnil =>
      refine (Lattice.label_of_same fun v hv => ?_).symm
      by_cases hend : (l.node v).endPos > calcEndPos
      · exact if_pos hend
      · have := hright.mem v hv (by omega)
        simp [hnil] at this
    · rw [foldl_connectEntry _ _ hright.empty]
      refine Lattice.foldl_label hnodup fun ws v hws hv hmem => ?_
      have hnode : (l.label ws (predictedLabel connector l calcEndPos pos)).node v = l.node v :=
        if_neg hmem
      have hself := (l.label ws (predictedLabel connector l calcEndPos pos)).setPrevCost_self v
      rw [hnode] at hself
      unfold assignBest
      rw [hnode]
      by_cases hend : (l.node v).endPos > calcEndPos
      · have hlabel : predictedLabel connector l calcEndPos pos v =
            ((l.node v).prev, (l.node v).cost) := if_pos hend
        rw [if_pos hend, hlabel]
        exact hself.symm
      · rw [if_neg hend]
        have hord : BestMap.Ordered
            (rbest.map fun entry => (entry.1, bestEntry connector lbest entry.1)) :=
          List.pairwise_map.mpr hright.ordered
        obtain ⟨before, after, hs⟩ := lowerBound_of_mem hord
          (List.mem_map_of_mem (hright.mem v hv (by omega)))
        rw [hs]
        have hlabel : predictedLabel connector l calcEndPos pos v =
            match bestEntry connector lbest (l.node v).lid with
            | (_, none) => ((l.node v).prev, (l.node v).cost)
            | (cost, some u) => (some u, cost + (l.node v).wcost) := by
          rw [← hlbest]
          exact if_neg hend
        rw [hlabel]
        cases bestEntry connector lbest (l.node v).lid with
        | mk cost node =>
          cases node with
          | none => simpa using hself.symm
          | some u => simp

theorem predictedLabel_spec (calcEndPos pos v : Nat) (hend : (l.node v).endPos ≤ calcEndPos) :
    (∃ u ∈ l.endNodes pos, predictedLabel connector l calcEndPos pos v =
        (some u, l.leftCost connector (l.node v).lid u + (l.node v).wcost) ∧
      l.leftCost connector (l.node v).lid u < kIntMax ∧
      ∀ w ∈ l.endNodes pos,
        l.leftCost connector (l.node v).lid u ≤ l.leftCost connector (l.node v).lid w) ∨
    (predictedLabel connector l calcEndPos pos v = ((l.node v).prev, (l.node v).cost) ∧
      ∀ w ∈ l.endNodes pos, kIntMax ≤ l.leftCost connector (l.node v).lid w) := by
  have hleft := leftBest_foldl (l := l) (l.endNodes pos)
  rw [predictedLabel, if_neg (by omega)]
  generalize (l.endNodes pos).foldl (insertLeft l) [] = lbest at hleft
  have hle : ∀ w ∈ l.endNodes pos, (bestEntry connector lbest (l.node v).lid).1 ≤
      l.leftCost connector (l.node v).lid w := by
    intro w hw
    obtain ⟨entry, he, hid, hcost⟩ := hleft.complete w hw
    have := @leastBelow_le _ (fun _ => true)
      (fun entry : Nat × (Int × Option Nat) =>
        entry.2.1 + connector.getTransitionCost entry.1 (l.node v).lid) kIntMax _ entry he rfl
    rw [hid] at this
    rw [bestEntry, Lattice.leftCost]
    omega
  cases hscan : (leastBelow (fun _ => true) (fun entry : Nat × (Int × Option Nat) =>
      entry.2.1 + connector.getTransitionCost entry.1 (l.node v).lid) kIntMax lbest).2 with
  | none =>
    have hbound := leastBelow_eq_none hscan
    right
    rw [bestEntry, hscan] at hle ⊢
    rw [hbound] at hle ⊢
    exact ⟨rfl, hle⟩
  | some entry =>
    obtain ⟨he, _, hcost, hlt⟩ := leastBelow_eq_some hscan
    obtain ⟨u, hu, rfl⟩ := hleft.sound entry he
    left
    rw [bestEntry, hscan] at hle ⊢
    rw [hcost] at hle ⊢
    exact ⟨u, hu, rfl, hlt, hle⟩

namespace Stage

variable {segments : List Segment} {k : Nat} {m : Lattice}

theorem reached (hl : l.Fresh) (hm : Stage connector segments l k m)
    (hcost : l.CostsBounded connector segments) {u : Nat} {p : List Nat} {c : Int}
    (hw : (l.admissible connector segments).Walk u p c)
    (hu : u = l.bosNode ∨ (l.node u).beginPos < k) :
    (l.admissible connector segments).Labelled m.labels u := by
  have hr := @ranked_admissible connector segments _ hl
  induction hw with
  | source => exact Or.inl rfl
  | @snoc t u p c hw he ih =>
    have hk : (l.node u).beginPos < k := hu.resolve_left he.2.1.2
    have ht : (l.admissible connector segments).Labelled m.labels t := by
      refine ih ?_
      by_cases htb : t = l.bosNode
      · exact Or.inl htb
      · have := (hl.begin_lt_end t he.1.1 htb he.1.2).1
        have := he.2.2.1
        exact Or.inr (by omega)
    obtain ⟨p', hp'⟩ := (hm.toTraced hl).exists_walk hr ht
    exact Or.inr (hm.relaxed t u he hk ht (hcost t p' _ u hp' he)).1

theorem advance_least (hl : Solvable segments l) (hm : Stage connector segments l k m)
    (hcost : l.CostsBounded connector segments)
    (hcon : ∀ v, v < l.size → (l.node v).constrainedPrev = none)
    (hreach : ∀ v, v < l.size → v ≠ l.eosNode →
      ∃ p c, (l.admissible connector segments).Walk v p c) {f : Nat → Option Nat × Int}
    (hf : ∀ v ∈ l.beginNodes k,
      ((l.node v).endPos > segmentEnd 0 segments k → (f v).1 = none) ∧
      ((l.node v).endPos ≤ segmentEnd 0 segments k →
        (∃ u ∈ l.endNodes k,
          f v = (some u, m.leftCost connector (l.node v).lid u + (l.node v).wcost) ∧
          ∀ w ∈ l.endNodes k,
            m.leftCost connector (l.node v).lid u ≤ m.leftCost connector (l.node v).lid w) ∨
        ((f v).1 = none ∧
          ∀ w ∈ l.endNodes k, kIntMax ≤ m.leftCost connector (l.node v).lid w))) :
    Stage connector segments l (k + 1) (m.label (l.beginNodes k) f) := by
  have hrid : ∀ u, (m.node u).rid = (l.node u).rid := fun u => hm.same.field u Node.rid fun _ => rfl
  have hweight : ∀ u v, m.leftCost connector (l.node v).lid u + (l.node v).wcost =
      (m.node u).cost + (l.admissible connector segments).weight u v := by
    intro u v
    simp only [Lattice.leftCost, Lattice.admissible, hrid]
    omega
  have hlabelled : ∀ u ∈ l.endNodes k, (l.admissible connector segments).Labelled m.labels u := by
    intro u hu
    obtain ⟨hus, hue, huk⟩ := (hl.mem_endNodes k u).mp hu
    obtain ⟨p, c, hw⟩ := hreach u hus hue
    refine hm.reached hl.toFresh hcost hw ?_
    by_cases hub : u = l.bosNode
    · exact Or.inl hub
    · have := (hl.begin_lt_end u hus hub hue).1
      exact Or.inr (by omega)
  refine hm.advance hl.toFresh (fun v u hv huv => ?_) (fun u v hv he _ hbig => ?_)
  · obtain ⟨hvs, hvb, hvk⟩ := (hl.mem_beginNodes k v).mp hv
    by_cases hend : (l.node v).endPos ≤ segmentEnd 0 segments k
    · rcases (hf v hv).2 hend with ⟨w, hw, hfw, _⟩ | ⟨hnone, _⟩
      · rw [hfw] at huv ⊢
        obtain rfl := Option.some.inj huv
        obtain ⟨hus, hue, huk⟩ := (hl.mem_endNodes k w).mp hw
        refine ⟨⟨⟨hus, hue⟩, ⟨hvs, hvb⟩, by omega, by rwa [hvk], ?_⟩, hlabelled w hw, hweight w v⟩
        simp [hcon v hvs]
      · simp [hnone] at huv
    · simp [(hf v hv).1 (by omega)] at huv
  · obtain ⟨_, _, hvk⟩ := (hl.mem_beginNodes k v).mp hv
    have hu := (mem_of_edge hl.toFresh he).1
    have hend := he.2.2.2.1
    rw [hvk] at hu hend
    rcases (hf v hv).2 hend with ⟨w, _, hfw, hle⟩ | ⟨_, hge⟩
    · rw [hfw]
      refine ⟨rfl, ?_⟩
      rw [← hweight u v]
      exact Int.add_le_add_right (hle u hu) _
    · have hge := hge u hu
      have hlt : m.leftCost connector (l.node v).lid u < kVeryBigCost := by
        rw [Lattice.leftCost, hrid]
        exact hbig
      unfold kIntMax at hge
      unfold kVeryBigCost at hlt
      omega

section

variable (hl : Solvable segments l) (hcost : l.CostsBounded connector segments)
  (hcon : ∀ v, v < l.size → (l.node v).constrainedPrev = none)
  (hreach : ∀ v, v < l.size → v ≠ l.eosNode → ∃ p c, (l.admissible connector segments).Walk v p c)

theorem predictedLabel_least (hsame : SameNodes l m) (v : Nat)
    (hend : (l.node v).endPos ≤ segmentEnd 0 segments k) :
    (∃ u ∈ l.endNodes k,
      predictedLabel connector m (segmentEnd 0 segments k) k v =
        (some u, m.leftCost connector (l.node v).lid u + (l.node v).wcost) ∧
      m.leftCost connector (l.node v).lid u < kIntMax ∧
      ∀ w ∈ l.endNodes k,
        m.leftCost connector (l.node v).lid u ≤ m.leftCost connector (l.node v).lid w) ∨
    (predictedLabel connector m (segmentEnd 0 segments k) k v =
        ((m.node v).prev, (m.node v).cost) ∧
      ∀ w ∈ l.endNodes k, kIntMax ≤ m.leftCost connector (l.node v).lid w) := by
  have hspec := @predictedLabel_spec connector m (segmentEnd 0 segments k) k v
    (by rwa [hsame.field v Node.endPos fun _ => rfl])
  rwa [hsame.endNodes, hsame.field v Node.lid fun _ => rfl,
    hsame.field v Node.wcost fun _ => rfl] at hspec

include hl hcost hcon hreach

theorem predict (hm : Stage connector segments l k m) :
    Stage connector segments l (k + 1)
      (predictionPosition connector (segmentEnd 0 segments k) m k) := by
  rw [predictionPosition_eq _ _ (by rw [hm.same.beginNodes]; exact hl.nodup_beginNodes k),
    hm.same.beginNodes]
  refine hm.advance_least hl hcost hcon hreach fun v hv => ?_
  have hnone : (m.node v).prev = none := by
    rw [hm.later v (Or.inr ((hl.mem_beginNodes k v).mp hv).2.2.ge), (hl.unlabelled v).1]
  refine ⟨fun hend => ?_, fun hend => ?_⟩
  · rw [predictedLabel, hm.same.field v Node.endPos fun _ => rfl, if_pos hend]
    exact hnone
  · rcases predictedLabel_least hm.same v hend with ⟨u, hu, heq, _, hle⟩ | ⟨heq, hge⟩
    · exact Or.inl ⟨u, hu, heq, hle⟩
    · exact Or.inr ⟨by rw [heq]; exact hnone, hge⟩

theorem predict_again (hm : Stage connector segments l k m)
    (hleft : ∀ v ∈ l.beginNodes k, v ∉ l.endNodes k) :
    Stage connector segments l (k + 1) (predictionPosition connector (segmentEnd 0 segments k)
      (predictionPosition connector (segmentEnd 0 segments k) m k) k) := by
  have hnodup := hl.nodup_beginNodes k
  have hfirst := @predictionPosition_eq connector m
    (segmentEnd 0 segments k) k (by rwa [hm.same.beginNodes])
  rw [hfirst, hm.same.beginNodes]
  generalize hm' : m.label (l.beginNodes k) _ = m'
  have hsame : SameNodes l m' := by
    rw [← hm']
    exact hm.same.label _ _
  rw [predictionPosition_eq _ _ (by rwa [hsame.beginNodes]), hsame.beginNodes]
  conv => arg 5; rw [← hm', Lattice.label_label, hm']
  have hcost' : ∀ lid, ∀ u ∈ l.endNodes k,
      m'.leftCost connector lid u = m.leftCost connector lid u := by
    intro lid u hu
    have hnode : m'.node u = m.node u := by
      rw [← hm']
      exact if_neg fun h => hleft u h hu
    rw [Lattice.leftCost, Lattice.leftCost, hnode]
  refine hm.advance_least hl hcost hcon hreach fun v hv => ?_
  have hnone : (m.node v).prev = none := by
    rw [hm.later v (Or.inr ((hl.mem_beginNodes k v).mp hv).2.2.ge), (hl.unlabelled v).1]
  have hnode : m'.node v = { m.node v with
      prev := (predictedLabel connector m (segmentEnd 0 segments k) k v).1
      cost := (predictedLabel connector m (segmentEnd 0 segments k) k v).2 } := by
    rw [← hm']
    exact if_pos hv
  refine ⟨fun hend => ?_, fun hend => ?_⟩
  · rw [predictedLabel, hsame.field v Node.endPos fun _ => rfl, if_pos hend, hnode, predictedLabel,
      hm.same.field v Node.endPos fun _ => rfl, if_pos hend]
    exact hnone
  · rcases predictedLabel_least hsame v hend with ⟨u, hu, heq, _, hle⟩ | ⟨heq, hge⟩
    · refine Or.inl ⟨u, hu, ?_, fun w hw => ?_⟩
      · rw [heq, hcost' _ u hu]
      · rw [← hcost' _ u hu, ← hcost' _ w hw]
        exact hle w hw
    · have hge' : ∀ w ∈ l.endNodes k, kIntMax ≤ m.leftCost connector (l.node v).lid w := by
        intro w hw
        rw [← hcost' _ w hw]
        exact hge w hw
      refine Or.inr ⟨?_, hge'⟩
      rw [heq, hnode]
      have hleast := @predictedLabel_least connector _ _ _ _ hm.same v hend
      rcases hleast with ⟨u, hu, _, hlt, _⟩ | ⟨heq', _⟩
      · have := hge' u hu
        omega
      · rw [heq']
        exact hnone

theorem predictRange {left right : Nat} (hm : Stage connector segments l left m)
    (hle : left ≤ right)
    (hend : ∀ pos, left ≤ pos → pos < right → segmentEnd 0 segments pos = right) :
    Stage connector segments l right
      ((List.range' left (right - left)).foldl (predictionPosition connector right) m) := by
  obtain ⟨n, rfl⟩ := Nat.exists_eq_add_of_le hle
  rw [Nat.add_sub_cancel_left]
  suffices h : ∀ i, i ≤ n → Stage connector segments l (left + i)
      ((List.range' left i).foldl (predictionPosition connector (left + n)) m) from h n (le_refl n)
  intro i hi
  induction i with
  | zero => exact hm
  | succ i ih =>
    rw [List.range'_1_concat, List.foldl_append]
    simp only [List.foldl_cons, List.foldl_nil]
    have hstep := predict hl hcost hcon hreach (ih (by omega))
    rwa [hend (left + i) (by omega) (by omega)] at hstep

end

end Stage

def twoSegments (key : Bytes) (historyLength : Nat) : Segments :=
  ⟨[{ segmentType := .history, key := key.take historyLength },
    { segmentType := .free, key := key.drop historyLength }]⟩

theorem segmentEnd_twoSegments {key : Bytes} {historyLength : Nat} (h : historyLength ≤ key.length)
    (pos : Nat) : segmentEnd 0 (twoSegments key historyLength).segments pos =
      if pos < historyLength then historyLength else key.length := by
  have htake : (key.take historyLength).length = historyLength := by
    rw [List.length_take]
    omega
  simp only [twoSegments, segmentEnd, htake, List.length_drop, Nat.zero_add,
    Nat.add_sub_cancel' h]
  split
  · rfl
  · exact ite_self _

variable {key : Bytes} {h : Nat}

theorem stage_predictionViterbi (hkey : l.key = key) (hh : 0 < h) (hle : h ≤ key.length)
    (hl : Solvable (twoSegments key h).segments l)
    (hcost : l.CostsBounded connector (twoSegments key h).segments)
    (hcon : ∀ v, v < l.size → (l.node v).constrainedPrev = none)
    (hreach : ∀ v, v < l.size → v ≠ l.eosNode →
      ∃ p c, (l.admissible connector (twoSegments key h).segments).Walk v p c) :
    Stage connector (twoSegments key h).segments l (l.key.length + 1)
      (predictionViterbiInternal connector h key.length
        (predictionViterbiInternal connector 0 h l)) := by
  have hend := segmentEnd_twoSegments hle
  have hfirst := Stage.predictRange hl hcost hcon hreach (Stage.fresh hl.toFresh) (Nat.zero_le h)
    fun pos _ hpos => by rw [hend, if_pos hpos]
  unfold predictionViterbiInternal
  rw [Nat.sub_zero, List.range'_1_concat, List.foldl_append]
  rw [Nat.sub_zero] at hfirst
  generalize (List.range' 0 h).foldl (predictionPosition connector h) l = m at hfirst
  simp only [List.foldl_cons, List.foldl_nil, Nat.zero_add]
  have hlast : ∀ m, Stage connector (twoSegments key h).segments l h m →
      Stage connector (twoSegments key h).segments l (key.length + 1)
        ((List.range' h (key.length + 1 - h)).foldl
          (predictionPosition connector key.length) m) := by
    intro m hm
    have hrange := Stage.predictRange hl hcost hcon hreach hm hle
      fun pos hpos _ => by rw [hend, if_neg (by omega)]
    have hstep := Stage.predict hl hcost hcon hreach hrange
    rw [hend, if_neg (by omega)] at hstep
    have hsplit : key.length + 1 - h = key.length - h + 1 := by omega
    rw [hsplit, List.range'_1_concat, List.foldl_append, List.foldl_cons, List.foldl_nil,
      Nat.add_sub_cancel' hle]
    exact hstep
  rw [hkey]
  by_cases hlt : h < key.length
  · -- no node ends where the history ends and begins there too
    have hid : predictionPosition connector h m h = m := by
      rw [predictionPosition_eq _ _ (by rw [hfirst.same.beginNodes]; exact hl.nodup_beginNodes h)]
      refine Lattice.label_of_same fun v hv => if_pos ?_
      rw [hfirst.same.beginNodes] at hv
      obtain ⟨hvs, hvb, hvk⟩ := (hl.mem_beginNodes h v).mp hv
      have hve : v ≠ l.eosNode := by
        rintro rfl
        have := hl.eos_pos.1
        rw [hkey] at this
        omega
      rw [hfirst.same.field v Node.endPos fun _ => rfl]
      have := (hl.begin_lt_end v hvs hvb hve).1
      omega
    rw [hid]
    exact hlast m hfirst
  · obtain rfl : h = key.length := by omega
    have hleft : ∀ v ∈ l.beginNodes key.length, v ∉ l.endNodes key.length := by
      intro v hv hv'
      rw [← hkey, hl.beginNodes_length, List.mem_singleton] at hv
      exact ((hl.mem_endNodes _ v).mp hv').2.1 hv
    have hstep := Stage.predict_again hl hcost hcon hreach hfirst hleft
    rw [hend, if_neg (by omega)] at hstep
    have hsplit : key.length + 1 - key.length = 1 := by omega
    rw [hsplit]
    exact hstep

theorem historyLength_eq (segments : Segments) :
    segments.historySegments.foldl (fun n segment => n + segment.key.length) 0 =
      (Segments.joinedKey segments.historySegments).length := by
  generalize segments.historySegments = history
  suffices h : ∀ n, history.foldl (fun n segment => n + segment.key.length) n =
      n + (Segments.joinedKey history).length by simpa using h 0
  induction history with
  | nil => simp
  | cons segment rest ih =>
    intro n
    rw [List.foldl_cons, ih, Segments.length_joinedKey_cons]
    omega

theorem predictionViterbi_solves {segments : Segments}
    (hhistory : (Segments.joinedKey segments.historySegments).length = h)
    (hkey : l.key = key) (hh : 0 < h) (hle : h ≤ key.length)
    (hl : Solvable (twoSegments key h).segments l)
    (hcost : l.CostsBounded connector (twoSegments key h).segments)
    (hcon : ∀ v, v < l.size → (l.node v).constrainedPrev = none)
    (hreach : ∀ v, v < l.size → v ≠ l.eosNode →
      ∃ p c, (l.admissible connector (twoSegments key h).segments).Walk v p c) :
    ∃ b m, predictionViterbi connector segments l = some (b, m) ∧
      Searched connector (twoSegments key h).segments l b m ∧
      (l.admissible connector (twoSegments key h).segments).Relaxed m.labels := by
  have hstage := stage_predictionViterbi hkey hh hle hl hcost hcon hreach
  obtain ⟨b, m, heq, hlabels, hs⟩ := hstage.searched hl
  refine ⟨b, m, ?_, hs, hlabels ▸ hstage.toRelaxed hl.toFresh hcost⟩
  unfold predictionViterbi
  rw [historyLength_eq, hhistory, hkey]
  exact heq

end

/-- `PredictionViterbi` against `Viterbi` on one history and one conversion segment: both return the
same answer, and when it is true EOS has the same cost, which the chain of `PredictionViterbi`
attains. -/
theorem predictionViterbi_agrees_with_viterbi (connector : Connector) (uninit : Nat → Nat → Int)
    (segments : Segments) (key : Bytes) (bosId historyLength : Nat) (nodes : List (Nat × Node))
    (hhistory : (Segments.joinedKey segments.historySegments).length = historyLength)
    (hpositive : 0 < historyLength) (hle : historyLength ≤ key.length) (hlen : key.length < 2 ^ 16)
    (hpos : ∀ p ∈ nodes, p.1 < key.length) (hnodes : ∀ p ∈ nodes, p.2.key ≠ [])
    (hlid : ∀ p ∈ nodes, p.2.lid < connector.size)
    (hcon : ∀ p ∈ nodes, p.2.constrainedPrev = none)
    (hcross : ∀ p ∈ nodes, p.1 < historyLength →
      min (p.2.key.length + p.1) key.length ≤ historyLength)
    (hreach : ∀ p ∈ nodes, ∃ u vs c, ((Lattice.fill key bosId nodes).admissible connector
      (twoSegments key historyLength).segments).Walk u vs c ∧
        ((Lattice.fill key bosId nodes).node u).endPos = p.1)
    (hcost : (Lattice.fill key bosId nodes).CostsBounded connector
      (twoSegments key historyLength).segments) :
    let l := Lattice.fill key bosId nodes
    let g := l.admissible connector (twoSegments key historyLength).segments
    ∃ found m m', viterbi connector uninit (twoSegments key historyLength) l = some (found, m) ∧
      predictionViterbi connector segments l = some (found, m') ∧
      (found = true → (m.node m.eosNode).cost = (m'.node m'.eosNode).cost ∧
        ∃ vs, g.Walk l.eosNode vs (m'.node m'.eosNode).cost ∧ m'.Linked vs) := by
  intro l g
  have hkey : key = Segments.joinedKey (twoSegments key historyLength).segments := by
    simp [Segments.joinedKey, twoSegments]
  have hfirst : key.take historyLength ≠ [] := by
    rw [← List.length_pos_iff, List.length_take]
    omega
  have hl : Solvable (twoSegments key historyLength).segments l :=
    solvable_fill hkey ⟨_, rfl, hfirst⟩ hlen hpos hnodes
      (fun p hp => by have := hlid p hp; have := connector.size_le; omega)
      (fun p hp c hc => by rw [hcon p hp] at hc; cases hc)
  have hlk : l.key = key := Lattice.fill_key key bosId nodes
  have hcon' : ∀ v, v < l.size → (l.node v).constrainedPrev = none :=
    (Lattice.fill_forall (P := fun n => n.constrainedPrev = none) rfl rfl hcon).2
  have hplaced : ∀ v, v < l.size → (l.node v).beginPos < (l.node v).endPos →
      (∃ u vs c, g.Walk u vs c ∧ (l.node u).endPos = (l.node v).beginPos) ∧
      (l.node v).endPos ≤
        segmentEnd 0 (twoSegments key historyLength).segments (l.node v).beginPos := by
    refine (Lattice.fill_forall (P := fun n => n.beginPos < n.endPos →
      (∃ u vs c, g.Walk u vs c ∧ (l.node u).endPos = n.beginPos) ∧
      n.endPos ≤ segmentEnd 0 (twoSegments key historyLength).segments n.beginPos) ?_ ?_ ?_).2
    · simp [Lattice.initBOSNode]
    · simp [Lattice.initEOSNode]
    · intro p hp _
      have hlt := hpos p hp
      have hend := hcross p hp
      have hmin : min (p.2.key.length + p.1) key.length ≤ key.length := Nat.min_le_right _ _
      simp only [Lattice.placed, Lattice.toPos_of_lt (hlt.trans hlen),
        Lattice.toPos_of_lt (hmin.trans_lt hlen)]
      refine ⟨hreach p hp, ?_⟩
      rw [segmentEnd_twoSegments hle]
      split
      · next h => exact hend h
      · exact hmin
  have hreach' : ∀ v, v < l.size → v ≠ l.eosNode → ∃ vs c, g.Walk v vs c := by
    intro v hv hve
    by_cases hvb : v = l.bosNode
    · exact ⟨[l.bosNode], 0, by rw [hvb]; exact WeightedGraph.Walk.source⟩
    · obtain ⟨hlt, hlast⟩ := hl.begin_lt_end v hv hvb hve
      obtain ⟨⟨u, vs, c, hw, hu⟩, hend⟩ := hplaced v hv hlt
      have hue : u ≠ l.eosNode := by
        rintro rfl
        have := hl.eos_pos.2
        omega
      have hus : u < l.size := by
        cases hw with
        | source => exact hl.bos_lt
        | snoc _ he => exact he.2.1.1
      exact ⟨_, _, hw.snoc ⟨⟨hus, hue⟩, ⟨hv, hvb⟩, hu, hend, by simp [hcon' v hv]⟩⟩
  have hr := @ranked_admissible connector
    (twoSegments key historyLength).segments _ hl.toFresh
  obtain ⟨found, m, heq, hs, hrelaxed⟩ := viterbi_solves uninit hl hcost
  obtain ⟨found', m', heq', hs', hrelaxed'⟩ :=
    predictionViterbi_solves hhistory hlk hpositive hle hl hcost hcon' hreach'
  obtain ⟨hiff, hsame⟩ := hrelaxed.unique hrelaxed' hr l.eosNode
  have hfound : found = found' := by
    rw [Bool.eq_iff_iff, hs.found_iff, hs'.found_iff]
    exact hiff
  refine ⟨found, m, m', heq, hfound ▸ heq', fun h => ?_⟩
  have hv := hs.found_iff.mp h
  have hv' := hs'.found_iff.mp (hfound ▸ h)
  rw [hs.same.eosNode, hs'.same.eosNode]
  exact ⟨hsame hv, _, hs'.traced.walk_back hr _ _ (le_refl _) hv', hs'.linked (hfound ▸ h)⟩

theorem predictionViterbi_agrees_with_viterbi_two_nodes :
    let segments : Segments :=
      ⟨[{ segmentType := .history, key := [0x61] }, { key := [0x62] }]⟩
    let l := Lattice.fill [0x61, 0x62] 0 [(0, { key := [0x61] }), (1, { key := [0x62] })]
    let g := l.admissible zeroConnector (twoSegments [0x61, 0x62] 1).segments
    ∃ found m m', viterbi zeroConnector (fun _ _ => 0) (twoSegments [0x61, 0x62] 1) l =
        some (found, m) ∧
      predictionViterbi zeroConnector segments l = some (found, m') ∧
      (found = true → (m.node m.eosNode).cost = (m'.node m'.eosNode).cost ∧
        ∃ vs, g.Walk l.eosNode vs (m'.node m'.eosNode).cost ∧ m'.Linked vs) := by
  have hnodes := (@Lattice.fill_forall [0x61, 0x62] 0
    [(0, { key := [0x61] }), (1, { key := [0x62] })]
    (fun n => n.wcost = 0 ∧ n.constrainedPrev = none) ⟨rfl, rfl⟩ ⟨rfl, rfl⟩
    (by simp [Lattice.placed])).2
  refine predictionViterbi_agrees_with_viterbi zeroConnector (fun _ _ => 0)
    ⟨[{ segmentType := .history, key := [0x61] }, { key := [0x62] }]⟩ [0x61, 0x62] 0 1
    [(0, { key := [0x61] }), (1, { key := [0x62] })] (by decide) (by decide) (by decide) (by decide)
    (by decide) (by decide) (by decide) (by decide) (by decide) (fun p hp => ?_)
    (costsBounded_of_zero (fun _ _ => rfl) fun v hv => (hnodes v hv).1)
  rcases List.mem_pair.mp hp with rfl | rfl
  · exact ⟨0, _, _, .source, by decide⟩
  · refine ⟨2, _, _, .snoc .source ?_, by decide⟩
    refine ⟨by decide, by decide, by decide, by decide, fun p hp => ?_⟩
    exact absurd (hp.symm.trans (hnodes 2 (by decide)).2) (Option.some_ne_none p)

/-- Without a history the first of the two segments is empty, and `Viterbi` fails where
`PredictionViterbi` does not. -/
theorem viterbi_fails_without_history :
    let segments : Segments := ⟨[{ key := [0x61] }]⟩
    let l := Lattice.fill [0x61] 0 [(0, { key := [0x61] })]
    (Segments.joinedKey segments.historySegments).length = 0 ∧
      l.CostsBounded zeroConnector (twoSegments [0x61] 0).segments ∧
      (viterbi zeroConnector (fun _ _ => 0) (twoSegments [0x61] 0) l).map Prod.fst = some false ∧
      (predictionViterbi zeroConnector segments l).map Prod.fst = some true := by
  refine ⟨rfl, costsBounded_of_zero (fun _ _ => rfl) ?_, by decide, by decide⟩
  exact (Lattice.fill_forall (P := fun n => n.wcost = 0) rfl rfl (by simp [Lattice.placed])).2

end Mozkey.Converter
