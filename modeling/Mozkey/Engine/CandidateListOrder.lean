import Mozkey.Engine.CandidateListCorrect

/-! The order in which a list that rotates goes through its leaves: with lists that do not rotate
inside it, one step is one leaf on, and a step back undoes it. -/

namespace Mozkey.Engine

namespace Candidate

def leaves : Candidate → List Candidate
  | leaf id attributes => [leaf id attributes]
  | sub _ _ list => list.candidates

def focusedLeaf : Candidate → Nat
  | leaf _ _ => 0
  | sub _ _ list => list.focusedIndex

/-- A leaf, or a list of leaves that does not rotate and has its focus on one of them. -/
def Flat : Candidate → Prop
  | leaf _ _ => True
  | sub _ _ list => list.state.rotate = false ∧ list.focusedIndex < list.size ∧
      ∀ c ∈ list.candidates, ∃ id attributes, c = leaf id attributes

def setFocus (index : Nat) : Candidate → Candidate := mapSub (CandidateList.setFocusedIndex index)

variable {c : Candidate} {index : Nat}

@[simp] theorem setFocus_leaves : (c.setFocus index).leaves = c.leaves := by
  rcases c with ⟨⟩ | ⟨_, _, ⟨⟩⟩ <;> rfl

theorem Flat.focusedLeaf_lt (h : c.Flat) : c.focusedLeaf < c.leaves.length := by
  rcases c with ⟨⟩ | ⟨_, _, ⟨⟩⟩
  · exact Nat.zero_lt_one
  · exact h.2.1

theorem Flat.setFocus (h : c.Flat) (hindex : index < c.leaves.length) : (c.setFocus index).Flat := by
  rcases c with ⟨⟩ | ⟨_, _, ⟨⟩⟩
  · trivial
  · exact ⟨h.1, hindex, h.2.2⟩

theorem setFocus_focusedLeaf (hindex : index < c.leaves.length) :
    (c.setFocus index).focusedLeaf = index := by
  rcases c with ⟨⟩ | ⟨_, _, ⟨⟩⟩
  · exact (Nat.lt_one_iff.mp hindex).symm
  · rfl

end Candidate

namespace CandidateList

def leaves (l : CandidateList) : List Candidate := l.candidates.flatMap Candidate.leaves

def leavesBefore (candidates : List Candidate) (index : Nat) : Nat :=
  ((candidates.take index).map fun c => c.leaves.length).sum

/-- The position of the deepest focused candidate among the leaves. -/
def leafIndex (l : CandidateList) : Nat :=
  leavesBefore l.candidates l.focusedIndex +
    (l.candidates[l.focusedIndex]?.map Candidate.focusedLeaf).getD 0

/-- A list that rotates, of leaves and of lists of leaves that do not rotate, with its focus on a
candidate. -/
structure Flat (l : CandidateList) : Prop where
  rotate : l.state.rotate = true
  focus : l.focusedIndex < l.size
  candidates : ∀ c ∈ l.candidates, c.Flat

theorem leavesBefore_succ {candidates : List Candidate} {index : Nat}
    (h : index < candidates.length) :
    leavesBefore candidates (index + 1) =
      leavesBefore candidates index + candidates[index].leaves.length := by
  rw [leavesBefore, List.take_succ_eq_append_getElem h, List.map_append, List.sum_append]
  simp [leavesBefore]

theorem leavesBefore_length (l : CandidateList) :
    leavesBefore l.candidates l.size = l.leaves.length := by
  rw [leavesBefore, size, List.take_length, leaves, List.length_flatMap]

theorem leavesBefore_congr {candidates candidates' : List Candidate}
    (h : candidates'.map Candidate.leaves = candidates.map Candidate.leaves) (index : Nat) :
    leavesBefore candidates' index = leavesBefore candidates index := by
  have hlengths : candidates'.map (fun c => c.leaves.length) =
      candidates.map (fun c => c.leaves.length) := by
    simpa only [List.map_map, Function.comp_def] using congrArg (List.map List.length) h
  rw [leavesBefore, leavesBefore, List.map_take, List.map_take, hlengths]

theorem leaves_congr {l l' : CandidateList}
    (h : l'.candidates.map Candidate.leaves = l.candidates.map Candidate.leaves) :
    l'.leaves = l.leaves := by
  rw [leaves, leaves, List.flatMap_def, List.flatMap_def, h]

/-! A list with the focus at a candidate and at one of its leaves. -/

def focusAt (l : CandidateList) (index leaf : Nat) : CandidateList :=
  (l.setFocusedIndex index).mapFocusedSub (setFocusedIndex leaf)

section FocusAt

variable {l : CandidateList} {index leaf : Nat}

theorem focusAt_candidates :
    (l.focusAt index leaf).candidates = l.candidates.modify index (Candidate.setFocus leaf) := by
  cases l
  rfl

theorem focusAt_leaves_map :
    (l.focusAt index leaf).candidates.map Candidate.leaves = l.candidates.map Candidate.leaves := by
  rw [focusAt_candidates]
  apply List.ext_getElem (by simp)
  intro i _ _
  rw [List.getElem_map, List.getElem_map, List.getElem_modify]
  split <;> simp

theorem focusAt_leaves : (l.focusAt index leaf).leaves = l.leaves :=
  leaves_congr focusAt_leaves_map

theorem Flat.focusAt (h : l.Flat) (hindex : index < l.size)
    (hleaf : leaf < l.candidates[index].leaves.length) : (l.focusAt index leaf).Flat := by
  refine ⟨by cases l; exact h.rotate, ?_, ?_⟩
  · cases l
    simpa [CandidateList.focusAt, mapFocusedSub, setFocusedIndex, focusedIndex, size,
      CandidateList.candidates, CandidateList.state] using hindex
  · intro c hc
    rw [focusAt_candidates] at hc
    obtain ⟨i, hi, rfl⟩ := List.mem_iff_getElem.mp hc
    rw [List.getElem_modify]
    have hi : i < l.candidates.length := by simpa using hi
    split
    · rename_i heq
      subst heq
      exact (h.candidates _ (List.getElem_mem hi)).setFocus hleaf
    · exact h.candidates _ (List.getElem_mem hi)

theorem focusAt_leafIndex (hindex : index < l.size)
    (hleaf : leaf < l.candidates[index].leaves.length) :
    (l.focusAt index leaf).leafIndex = leavesBefore l.candidates index + leaf := by
  have hfocus : (l.focusAt index leaf).focusedIndex = index := by
    rw [CandidateList.focusAt, mapFocusedSub_focusedIndex, setFocusedIndex_focusedIndex]
  have hindex' : index < l.candidates.length := hindex
  rw [leafIndex, hfocus, leavesBefore_congr focusAt_leaves_map, focusAt_candidates,
    List.getElem?_modify_eq, List.getElem?_eq_getElem hindex']
  exact congrArg _ (Candidate.setFocus_focusedLeaf hleaf)

end FocusAt

/-! One step. -/

section Steps

variable {l : CandidateList} {m : CandidateList → Bool × CandidateList}

theorem moveFocusedSub_leaf {candidates : List Candidate} {index : Nat} {id : Int}
    {attributes : UInt32} (h : candidates[index]? = some (.leaf id attributes)) :
    moveFocusedSub m candidates index = (false, candidates) := by
  induction candidates generalizing index with
  | nil => cases h
  | cons c candidates ih =>
    cases index with
    | zero =>
      obtain rfl := Option.some.inj h
      rfl
    | succ index =>
      have ih := @ih index h
      cases c <;> rw [moveFocusedSub, ih]

theorem moveFocusedSub_sub {candidates : List Candidate} {index : Nat} {id : Int}
    {attributes : UInt32} {list : CandidateList}
    (h : candidates[index]? = some (.sub id attributes list)) :
    moveFocusedSub m candidates index =
      ((moveFocused m list).1, candidates.set index (.sub id attributes (moveFocused m list).2)) := by
  induction candidates generalizing index with
  | nil => cases h
  | cons c candidates ih =>
    cases index with
    | zero =>
      obtain rfl := Option.some.inj h
      rfl
    | succ index =>
      have ih := @ih index h
      cases c <;> rw [moveFocusedSub, ih] <;> rfl

theorem moveFocused_leaves (hfocus : l.focusedIndex < l.size)
    (hleaves : ∀ c ∈ l.candidates, ∃ id attributes, c = .leaf id attributes) :
    moveFocused m l = m l := by
  obtain ⟨state, candidates⟩ := l
  obtain ⟨id, attributes, hc⟩ := hleaves _ (List.getElem_mem hfocus)
  have hget : candidates[state.focusedIndex]? = some (.leaf id attributes) := by
    rw [← hc]
    exact List.getElem?_eq_getElem hfocus
  rw [moveFocused, moveFocusedSub_leaf hget]
  rfl

theorem mapFocusedSub_leaves {f : CandidateList → CandidateList}
    (hleaves : ∀ c ∈ l.candidates, ∃ id attributes, c = .leaf id attributes) :
    l.mapFocusedSub f = l := by
  obtain ⟨state, candidates⟩ := l
  have hmodify : candidates.modify state.focusedIndex (Candidate.mapSub f) = candidates := by
    apply List.ext_getElem (by simp)
    intro i _ hi
    rw [List.getElem_modify]
    split
    · obtain ⟨id, attributes, hc⟩ := hleaves _ (List.getElem_mem hi)
      have hc : candidates[i] = .leaf id attributes := hc
      rw [hc]
      rfl
    · rfl
  rw [mapFocusedSub, hmodify]

/-- What a move does to a flat list: it goes on within the focused sublist, or leaves that one as
`m` leaves it and goes on from there. -/
theorem moveFocused_flat (h : l.Flat) :
    (∃ id attributes, l.candidates[l.focusedIndex]? = some (.leaf id attributes) ∧
        moveFocused m l = m l) ∨
      ∃ id attributes list, l.candidates[l.focusedIndex]? = some (.sub id attributes list) ∧
        Candidate.Flat (.sub id attributes list) ∧
        moveFocused m l =
          if (m list).1 then (true, l.mapFocusedSub fun _ => (m list).2)
          else m (l.mapFocusedSub fun _ => (m list).2) := by
  obtain ⟨state, candidates⟩ := l
  have hfocus : state.focusedIndex < candidates.length := h.focus
  have hget := List.getElem?_eq_getElem hfocus
  have hflat := h.candidates _ (List.getElem_mem hfocus)
  cases hc : candidates[state.focusedIndex] with
  | leaf id attributes =>
    rw [hc] at hget
    refine .inl ⟨id, attributes, hget, ?_⟩
    rw [moveFocused, moveFocusedSub_leaf hget]
    rfl
  | sub id attributes list =>
    rw [hc] at hget hflat
    refine .inr ⟨id, attributes, list, hget, hflat, ?_⟩
    have hset : candidates.set state.focusedIndex (.sub id attributes (m list).2) =
        candidates.modify state.focusedIndex (Candidate.mapSub fun _ => (m list).2) := by
      rw [List.modify_eq_set_getElem?, hget]
      rfl
    rw [moveFocused, moveFocusedSub_sub hget, moveFocused_leaves hflat.2.1 hflat.2.2, hset]
    rfl

theorem focusAt_self (leaf : Nat) :
    l.mapFocusedSub (setFocusedIndex leaf) = l.focusAt l.focusedIndex leaf := by
  cases l
  rfl

theorem mapFocusedSub_const {f : CandidateList → CandidateList} {id : Int} {attributes : UInt32}
    {list : CandidateList} (h : l.candidates[l.focusedIndex]? = some (.sub id attributes list)) :
    l.mapFocusedSub (fun _ => f list) = l.mapFocusedSub f := by
  obtain ⟨state, candidates⟩ := l
  have h : candidates[state.focusedIndex]? = some (.sub id attributes list) := h
  rw [mapFocusedSub, mapFocusedSub, List.modify_eq_set_getElem?, List.modify_eq_set_getElem?, h]
  rfl

theorem focusAt_leaf {id : Int} {attributes : UInt32} (leaf : Nat)
    (h : l.candidates[l.focusedIndex]? = some (.leaf id attributes)) :
    l.focusAt l.focusedIndex leaf = l := by
  obtain ⟨state, candidates⟩ := l
  have h : candidates[state.focusedIndex]? = some (.leaf id attributes) := h
  have hmodify : candidates.modify state.focusedIndex
      (Candidate.mapSub (setFocusedIndex leaf)) = candidates := by
    obtain ⟨hlt, hget⟩ := List.getElem?_eq_some_iff.mp h
    rw [List.modify_eq_set_getElem?, h]
    change candidates.set state.focusedIndex (.leaf id attributes) = candidates
    rw [← hget, List.set_getElem_self]
  rw [← focusAt_self, mapFocusedSub, hmodify]

/-- The leaf that is focused in the focused candidate, and how many leaves that one has. -/
def focusedLeaf (l : CandidateList) : Nat :=
  (l.candidates[l.focusedIndex]?.map Candidate.focusedLeaf).getD 0

def focusedLeaves (l : CandidateList) : Nat :=
  (l.candidates[l.focusedIndex]?.map fun c => c.leaves.length).getD 0

theorem moveNextHere_rotate (h : l.state.rotate = true) :
    l.moveNextHere =
      (true, l.focusAt (if l.focusedIndex = l.size - 1 then 0 else l.focusedIndex + 1) 0) := by
  unfold moveNextHere
  rw [if_pos h]
  by_cases hlast : l.focusedIndex = l.size - 1
  · rw [if_pos (by simpa [isLast] using hlast), if_pos hlast]
    rfl
  · rw [if_neg (by simpa [isLast] using hlast), if_neg hlast]
    rfl

theorem moveNextHere_leaves (h : l.state.rotate = false) (hfocus : l.focusedIndex < l.size)
    (hleaves : ∀ c ∈ l.candidates, ∃ id attributes, c = Candidate.leaf id attributes) :
    l.moveNextHere =
      if l.focusedIndex + 1 < l.size then (true, l.setFocusedIndex (l.focusedIndex + 1))
      else (false, l.setFocusedIndex 0) := by
  have hmap : ∀ index, (l.setFocusedIndex index).mapFocusedSub moveFirst =
      l.setFocusedIndex index := fun index => by
    apply mapFocusedSub_leaves
    cases l
    exact hleaves
  unfold moveNextHere
  rw [hmap]
  by_cases hlast : l.focusedIndex + 1 < l.size
  · have hnot : ¬l.isLast l.focusedIndex = true := by
      simp only [isLast, beq_iff_eq]
      omega
    rw [if_neg hnot, if_pos hlast]
  · have his : l.isLast l.focusedIndex = true := by
      simp only [isLast, beq_iff_eq]
      omega
    rw [if_pos his, if_neg hlast, if_neg (by simp [h])]
    rfl

theorem moveNext_flat (h : l.Flat) :
    l.moveNext =
      if l.focusedLeaf + 1 < l.focusedLeaves then
        (true, l.focusAt l.focusedIndex (l.focusedLeaf + 1))
      else
        (true, (l.focusAt l.focusedIndex 0).focusAt
          (if l.focusedIndex = l.size - 1 then 0 else l.focusedIndex + 1) 0) := by
  have hback : (l.focusAt l.focusedIndex 0).state.rotate = true ∧
      (l.focusAt l.focusedIndex 0).focusedIndex = l.focusedIndex ∧
      (l.focusAt l.focusedIndex 0).size = l.size := by
    cases l
    exact ⟨h.rotate, rfl, by simp [focusAt, mapFocusedSub, setFocusedIndex, size,
      CandidateList.candidates]⟩
  have hhere := moveNextHere_rotate hback.1
  rw [hback.2.1, hback.2.2] at hhere
  rcases moveFocused_flat (m := moveNextHere) h with
    ⟨id, attributes, hget, hmove⟩ | ⟨id, attributes, list, hget, ⟨hrotate, hfocus, hleaves⟩, hmove⟩
  · have hleaf : l.focusedLeaf = 0 ∧ l.focusedLeaves = 1 := by
      rw [focusedLeaf, focusedLeaves, hget]
      exact ⟨rfl, rfl⟩
    rw [hleaf.1, hleaf.2, if_neg (by decide), ← hhere, focusAt_leaf 0 hget]
    exact hmove
  · have hleaf : l.focusedLeaf = list.focusedIndex ∧ l.focusedLeaves = list.size := by
      rw [focusedLeaf, focusedLeaves, hget]
      exact ⟨rfl, rfl⟩
    rw [moveNext, hmove, moveNextHere_leaves hrotate hfocus hleaves, hleaf.1, hleaf.2]
    split
    · rw [if_pos rfl]
      dsimp only
      rw [mapFocusedSub_const (f := setFocusedIndex (list.focusedIndex + 1)) hget, focusAt_self]
    · rw [if_neg Bool.false_ne_true, ← hhere]
      dsimp only
      rw [mapFocusedSub_const (f := setFocusedIndex 0) hget, focusAt_self]

theorem mapFocusedSub_moveLast :
    l.mapFocusedSub moveLast = l.focusAt l.focusedIndex (l.focusedLeaves - 1) := by
  rw [← focusAt_self]
  obtain ⟨state, candidates⟩ := l
  rw [mapFocusedSub, mapFocusedSub, List.modify_eq_set_getElem?, List.modify_eq_set_getElem?]
  rw [focusedLeaves]
  cases hget : candidates[state.focusedIndex]? with
  | none => rfl
  | some c => cases c <;> simp [Candidate.mapSub, hget, moveLast, focusedIndex,
      CandidateList.candidates, CandidateList.state, Candidate.leaves, size]

theorem movePrevHere_rotate (h : l.state.rotate = true) :
    l.movePrevHere =
      (true, (l.setFocusedIndex
        (if l.focusedIndex = 0 then l.size - 1 else l.focusedIndex - 1)).mapFocusedSub moveLast) := by
  unfold movePrevHere
  rw [if_pos h]
  by_cases hfirst : l.focusedIndex = 0
  · rw [if_pos (by simpa [isFirst] using hfirst), if_pos hfirst]
    rfl
  · rw [if_neg (by simpa [isFirst] using hfirst), if_neg hfirst]

theorem movePrevHere_leaves (h : l.state.rotate = false)
    (hleaves : ∀ c ∈ l.candidates, ∃ id attributes, c = Candidate.leaf id attributes) :
    l.movePrevHere =
      if 0 < l.focusedIndex then (true, l.setFocusedIndex (l.focusedIndex - 1))
      else (false, l.setFocusedIndex (l.size - 1)) := by
  have hmap : ∀ index, (l.setFocusedIndex index).mapFocusedSub moveLast =
      l.setFocusedIndex index := fun index => by
    apply mapFocusedSub_leaves
    cases l
    exact hleaves
  unfold movePrevHere
  rw [hmap]
  by_cases hfirst : l.focusedIndex = 0
  · have hrotate : ¬l.state.rotate = true := by simp [h]
    rw [if_pos (by simpa [isFirst] using hfirst), if_neg (Nat.not_lt.mpr hfirst.le),
      if_neg hrotate]
    rfl
  · rw [if_neg (by simpa [isFirst] using hfirst), if_pos (Nat.pos_of_ne_zero hfirst)]

theorem movePrev_flat (h : l.Flat) :
    l.movePrev =
      if 0 < l.focusedLeaf then (true, l.focusAt l.focusedIndex (l.focusedLeaf - 1))
      else
        (true, ((l.focusAt l.focusedIndex (l.focusedLeaves - 1)).setFocusedIndex
          (if l.focusedIndex = 0 then l.size - 1 else l.focusedIndex - 1)).mapFocusedSub
            moveLast) := by
  have hback : ∀ leaf, (l.focusAt l.focusedIndex leaf).state.rotate = true ∧
      (l.focusAt l.focusedIndex leaf).focusedIndex = l.focusedIndex ∧
      (l.focusAt l.focusedIndex leaf).size = l.size := fun leaf => by
    cases l
    exact ⟨h.rotate, rfl, by simp [focusAt, mapFocusedSub, setFocusedIndex, size,
      CandidateList.candidates]⟩
  have hhere := movePrevHere_rotate (hback (l.focusedLeaves - 1)).1
  rw [(hback _).2.1, (hback _).2.2] at hhere
  rcases moveFocused_flat (m := movePrevHere) h with
    ⟨id, attributes, hget, hmove⟩ | ⟨id, attributes, list, hget, ⟨hrotate, hfocus, hleaves⟩, hmove⟩
  · have hleaf : l.focusedLeaf = 0 := by
      rw [focusedLeaf, hget]
      rfl
    rw [hleaf, if_neg (by decide), ← hhere, focusAt_leaf _ hget]
    exact hmove
  · have hleaf : l.focusedLeaf = list.focusedIndex ∧ l.focusedLeaves = list.size := by
      rw [focusedLeaf, focusedLeaves, hget]
      exact ⟨rfl, rfl⟩
    rw [movePrev, hmove, movePrevHere_leaves hrotate hleaves, hleaf.1, ← hhere, hleaf.2]
    split
    · rw [if_pos rfl]
      dsimp only
      rw [mapFocusedSub_const (f := setFocusedIndex (list.focusedIndex - 1)) hget, focusAt_self]
    · rw [if_neg Bool.false_ne_true]
      dsimp only
      rw [mapFocusedSub_const (f := setFocusedIndex (list.size - 1)) hget, focusAt_self]

end Steps

/-! The order of the leaves. -/

section Order

variable {l l' : CandidateList}

def FocusOn (l : CandidateList) (index : Nat) (l' : CandidateList) : Prop :=
  l'.Flat ∧ l'.leaves = l.leaves ∧ l'.leafIndex = index

theorem Flat.focusAt_on (h : l.Flat) {index leaf : Nat} (hindex : index < l.size)
    (hleaf : leaf < l.candidates[index].leaves.length) :
    FocusOn l (leavesBefore l.candidates index + leaf) (l.focusAt index leaf) :=
  ⟨h.focusAt hindex hleaf, focusAt_leaves, focusAt_leafIndex hindex hleaf⟩

theorem Flat.leaves_pos (h : l.Flat) {index : Nat} (hindex : index < l.size) :
    0 < l.candidates[index].leaves.length :=
  Nat.zero_lt_of_lt (h.candidates _ (List.getElem_mem hindex)).focusedLeaf_lt

theorem leavesBefore_le (index : Nat) : leavesBefore l.candidates index ≤ l.leaves.length := by
  rw [← leavesBefore_length, leavesBefore, leavesBefore, size, List.take_length]
  apply List.Sublist.sum_le_sum
  · exact (List.take_sublist index l.candidates).map _
  · simp

theorem Flat.leafIndex_eq (h : l.Flat) :
    l.leafIndex = leavesBefore l.candidates l.focusedIndex + l.focusedLeaf ∧
      l.focusedLeaf < l.focusedLeaves ∧
      leavesBefore l.candidates (l.focusedIndex + 1) =
        leavesBefore l.candidates l.focusedIndex + l.focusedLeaves ∧
      ∀ hfocus : l.focusedIndex < l.size,
        l.focusedLeaves = l.candidates[l.focusedIndex].leaves.length := by
  have hget := List.getElem?_eq_getElem h.focus
  have hlt := (h.candidates _ (List.getElem_mem h.focus)).focusedLeaf_lt
  have hsucc := leavesBefore_succ h.focus
  refine ⟨rfl, ?_, ?_, ?_⟩
  · rw [focusedLeaf, focusedLeaves]
    simpa [hget] using hlt
  · rw [focusedLeaves]
    simpa [hget] using hsucc
  · intro hfocus
    rw [focusedLeaves]
    simp [hget]

theorem Flat.enter_on (h : l.Flat) {leaf index : Nat} (hleaf : leaf < l.focusedLeaves)
    (hindex : index < l.size) :
    FocusOn l (leavesBefore l.candidates index)
        ((l.focusAt l.focusedIndex leaf).focusAt index 0) ∧
      FocusOn l (leavesBefore l.candidates (index + 1) - 1)
        (((l.focusAt l.focusedIndex leaf).setFocusedIndex index).mapFocusedSub moveLast) := by
  obtain ⟨_, _, _, hleaves⟩ := h.leafIndex_eq
  obtain ⟨hflat, hsame, -⟩ := Flat.focusAt_on h h.focus (hleaves h.focus ▸ hleaf)
  have hsize : (l.focusAt l.focusedIndex leaf).size = l.size := by
    rw [size, focusAt_candidates, List.length_modify]
    rfl
  have hindex' : index < (l.focusAt l.focusedIndex leaf).size := hsize.symm ▸ hindex
  have hpos := hflat.leaves_pos hindex'
  have hbefore := leavesBefore_congr
    (@focusAt_leaves_map l l.focusedIndex leaf)
  constructor
  · obtain ⟨hflat', hsame', hon⟩ := hflat.focusAt_on hindex' hpos
    exact ⟨hflat', hsame'.trans hsame, by rw [hon, hbefore, Nat.add_zero]⟩
  · rw [mapFocusedSub_moveLast, setFocusedIndex_focusedIndex]
    have hlast : ((l.focusAt l.focusedIndex leaf).setFocusedIndex index).focusedLeaves =
        (l.focusAt l.focusedIndex leaf).candidates[index].leaves.length := by
      rw [focusedLeaves, setFocusedIndex_focusedIndex]
      have hget := List.getElem?_eq_getElem hindex'
      have hcandidates : ((l.focusAt l.focusedIndex leaf).setFocusedIndex index).candidates =
          (l.focusAt l.focusedIndex leaf).candidates := by
        generalize l.focusAt l.focusedIndex leaf = m
        cases m
        rfl
      rw [hcandidates, hget]
      rfl
    have hset : ∀ (m : CandidateList) (last : Nat),
        (m.setFocusedIndex index).focusAt index last = m.focusAt index last := fun m last => by
      cases m
      rfl
    rw [hlast, hset]
    obtain ⟨hflat', hsame', hon⟩ := hflat.focusAt_on hindex' (Nat.sub_one_lt_of_lt hpos)
    have hsucc := leavesBefore_succ hindex'
    have hstart := hbefore index
    have hstop := hbefore (index + 1)
    exact ⟨hflat', hsame'.trans hsame, by rw [hon]; omega⟩

theorem moveNext_on (h : l.Flat) :
    l.moveNext.1 = true ∧ FocusOn l ((l.leafIndex + 1) % l.leaves.length) l.moveNext.2 := by
  obtain ⟨hindex, hlt, hsucc, hleaves⟩ := h.leafIndex_eq
  have htotal := leavesBefore_le (l := l) (l.focusedIndex + 1)
  have hfocus := h.focus
  rw [moveNext_flat h]
  split
  · refine ⟨rfl, ?_⟩
    have hleaf : l.focusedLeaf + 1 < l.focusedLeaves := ‹_›
    rw [Nat.mod_eq_of_lt (by omega), hindex, Nat.add_assoc]
    exact h.focusAt_on hfocus (hleaves hfocus ▸ hleaf)
  · refine ⟨rfl, ?_⟩
    have hend : l.leafIndex + 1 = leavesBefore l.candidates (l.focusedIndex + 1) := by omega
    have hzero : 0 < l.focusedLeaves := by omega
    dsimp only
    by_cases hlast : l.focusedIndex = l.size - 1
    · rw [if_pos hlast, hend, show l.focusedIndex + 1 = l.size by omega, leavesBefore_length,
        Nat.mod_self]
      exact (h.enter_on hzero (by omega)).1
    · have hnext : l.focusedIndex + 1 < l.size := by omega
      have hmore := leavesBefore_le (l := l) (l.focusedIndex + 1 + 1)
      rw [leavesBefore_succ hnext] at hmore
      have hpos := h.leaves_pos hnext
      rw [if_neg hlast, hend, Nat.mod_eq_of_lt (by omega)]
      exact (h.enter_on hzero hnext).1

theorem movePrev_on (h : l.Flat) :
    l.movePrev.1 = true ∧
      FocusOn l ((l.leafIndex + (l.leaves.length - 1)) % l.leaves.length) l.movePrev.2 := by
  obtain ⟨hindex, hlt, hsucc, hleaves⟩ := h.leafIndex_eq
  have htotal := leavesBefore_le (l := l) (l.focusedIndex + 1)
  have hfocus := h.focus
  have hback : 0 < l.leafIndex → (l.leafIndex + (l.leaves.length - 1)) % l.leaves.length =
      l.leafIndex - 1 := fun hpos => by
    rw [show l.leafIndex + (l.leaves.length - 1) = l.leafIndex - 1 + l.leaves.length by omega,
      Nat.add_mod_right, Nat.mod_eq_of_lt (by omega)]
  rw [movePrev_flat h]
  split
  · refine ⟨rfl, ?_⟩
    have hleaf : l.focusedLeaf - 1 < l.focusedLeaves := by omega
    rw [hback (by omega), hindex, Nat.add_sub_assoc (by omega)]
    exact h.focusAt_on hfocus (hleaves hfocus ▸ hleaf)
  · refine ⟨rfl, ?_⟩
    have hlastLeaf : l.focusedLeaves - 1 < l.focusedLeaves := by omega
    have hstart : l.leafIndex = leavesBefore l.candidates l.focusedIndex := by omega
    dsimp only
    by_cases hfirst : l.focusedIndex = 0
    · have hon := (@Flat.enter_on l h _ (l.size - 1) hlastLeaf (by omega)).2
      rw [show l.size - 1 + 1 = l.size by omega, leavesBefore_length] at hon
      have hzero : l.leafIndex = 0 := by
        rw [hstart, hfirst]
        rfl
      rw [if_pos hfirst, hzero, Nat.zero_add, Nat.mod_eq_of_lt (by omega)]
      exact hon
    · have hprev : l.focusedIndex - 1 < l.size := by omega
      have hon := (h.enter_on hlastLeaf hprev).2
      have hbefore := leavesBefore_succ hprev
      have hpos := h.leaves_pos hprev
      rw [show l.focusedIndex - 1 + 1 = l.focusedIndex by omega] at hon hbefore
      rw [if_neg hfirst, hback (by omega), hstart]
      exact hon

theorem deepestFocusedCandidate_leaves {candidates : List Candidate} {index : Nat}
    (h : ∀ c ∈ candidates, ∃ id attributes, c = .leaf id attributes) :
    deepestFocusedCandidate candidates index = candidates[index]? := by
  induction candidates generalizing index with
  | nil => rfl
  | cons c candidates ih =>
    obtain ⟨id, attributes, rfl⟩ := h c List.mem_cons_self
    cases index with
    | zero => rfl
    | succ index => exact ih fun c hc => h c (List.mem_cons_of_mem _ hc)

theorem deepestFocusedCandidate_eq {candidates : List Candidate} {index : Nat}
    (hflat : ∀ c ∈ candidates, c.Flat) (hindex : index < candidates.length) :
    deepestFocusedCandidate candidates index =
      (candidates.flatMap Candidate.leaves)[leavesBefore candidates index +
        (candidates[index]?.map Candidate.focusedLeaf).getD 0]? := by
  induction candidates generalizing index with
  | nil => cases hindex
  | cons c candidates ih =>
    have hc := hflat c List.mem_cons_self
    rw [List.flatMap_cons]
    cases index with
    | zero =>
      have hlt := hc.focusedLeaf_lt
      have hzero : leavesBefore (c :: candidates) 0 = 0 := rfl
      rw [List.getElem?_cons_zero, Option.map_some, Option.getD_some, hzero, Nat.zero_add,
        List.getElem?_append_left hlt]
      cases c with
      | leaf => rfl
      | sub id attributes list =>
        obtain ⟨state, leaves⟩ := list
        exact deepestFocusedCandidate_leaves hc.2.2
    | succ index =>
      have hindex : index < candidates.length := Nat.lt_of_succ_lt_succ hindex
      have hbefore : leavesBefore (c :: candidates) (index + 1) =
          c.leaves.length + leavesBefore candidates index := by
        simp [leavesBefore]
      have ih := ih (fun c hc => hflat c (List.mem_cons_of_mem _ hc)) hindex
      rw [hbefore, List.getElem?_cons_succ, Nat.add_assoc,
        List.getElem?_append_right (Nat.le_add_right _ _), Nat.add_sub_cancel_left, ← ih]
      cases c <;> rfl

theorem getDeepestFocusedCandidate_eq (h : l.Flat) :
    l.getDeepestFocusedCandidate = l.leaves[l.leafIndex]? := by
  obtain ⟨state, candidates⟩ := l
  exact deepestFocusedCandidate_eq h.candidates h.focus

theorem leafIndex_lt (h : l.Flat) : l.leafIndex < l.leaves.length := by
  obtain ⟨hindex, hlt, hsucc, _⟩ := h.leafIndex_eq
  have htotal := leavesBefore_le (l := l) (l.focusedIndex + 1)
  omega

def moveNexts (k : Nat) (l : CandidateList) : CandidateList := (fun l => l.moveNext.2)^[k] l

theorem moveNexts_on (h : l.Flat) (k : Nat) :
    FocusOn l ((l.leafIndex + k) % l.leaves.length) (l.moveNexts k) := by
  induction k with
  | zero =>
    rw [Nat.add_zero, Nat.mod_eq_of_lt (leafIndex_lt h)]
    exact ⟨h, rfl, rfl⟩
  | succ k ih =>
    obtain ⟨hflat, hleaves, hindex⟩ := ih
    obtain ⟨_, hflat', hleaves', hindex'⟩ := moveNext_on hflat
    rw [moveNexts, Function.iterate_succ_apply']
    refine ⟨hflat', hleaves'.trans hleaves, ?_⟩
    have hstep : ((l.moveNexts k).moveNext.2).leafIndex = _ := hindex'
    rw [hindex, hleaves, Nat.mod_add_mod, Nat.add_assoc] at hstep
    exact hstep

theorem moveNext_movePrev_on (h : l.Flat) : FocusOn l l.leafIndex l.moveNext.2.movePrev.2 := by
  obtain ⟨_, hflat, hleaves, hindex⟩ := moveNext_on h
  obtain ⟨_, hflat', hleaves', hindex'⟩ := movePrev_on hflat
  have hlt := leafIndex_lt h
  refine ⟨hflat', hleaves'.trans hleaves, ?_⟩
  rw [hindex', hindex, hleaves, Nat.mod_add_mod,
    show l.leafIndex + 1 + (l.leaves.length - 1) = l.leafIndex + l.leaves.length by omega,
    Nat.add_mod_right, Nat.mod_eq_of_lt hlt]

end Order

end CandidateList

open CandidateList

variable {l₀ l : CandidateList} {moves : List Move}

theorem Flat_of_run (h₀ : l₀.Flat)
    (hrun : Lib.Run Move.step (fun _ m => m = .next ∨ m = .prev) l₀ moves l) :
    l.Flat ∧ l.leaves = l₀.leaves := by
  apply hrun.inv (p := fun l => l.Flat ∧ l.leaves = l₀.leaves) ⟨h₀, rfl⟩
  rintro l m l' ⟨hflat, hleaves⟩ hm hstep
  obtain rfl := Option.some.inj hstep
  rcases hm with rfl | rfl
  · obtain ⟨_, hflat', hleaves', _⟩ := moveNext_on hflat
    exact ⟨hflat', hleaves'.trans hleaves⟩
  · obtain ⟨_, hflat', hleaves', _⟩ := movePrev_on hflat
    exact ⟨hflat', hleaves'.trans hleaves⟩

/-- From any position that steps lead to, `MoveNext` goes through the leaves in order, is back after
as many steps as there are leaves and has then been on each of them once; `MovePrev` undoes it. -/
theorem moveNext_visits_leaves (h₀ : l₀.Flat)
    (hrun : Lib.Run Move.step (fun _ m => m = .next ∨ m = .prev) l₀ moves l) :
    (∀ k, (l.moveNexts k).moveNext.1 = true ∧
      (l.moveNexts k).leafIndex = (l.leafIndex + k) % l₀.leaves.length ∧
      (l.moveNexts k).getDeepestFocusedCandidate =
        l₀.leaves[(l.leafIndex + k) % l₀.leaves.length]?) ∧
    (∀ j < l₀.leaves.length, ∃! k, k < l₀.leaves.length ∧ (l.moveNexts k).leafIndex = j) ∧
    (l.moveNexts l₀.leaves.length).leafIndex = l.leafIndex ∧
    l.moveNext.2.movePrev.1 = true ∧ l.moveNext.2.movePrev.2.leafIndex = l.leafIndex ∧
    l.moveNext.2.movePrev.2.getDeepestFocusedCandidate = l.getDeepestFocusedCandidate := by
  obtain ⟨hflat, hleaves⟩ := Flat_of_run h₀ hrun
  have hlt := leafIndex_lt hflat
  have hindex : ∀ k, (l.moveNexts k).leafIndex = (l.leafIndex + k) % l.leaves.length :=
    fun k => (moveNexts_on hflat k).2.2
  rw [← hleaves]
  refine ⟨fun k => ?_, fun j hj => ?_, ?_, ?_, ?_, ?_⟩
  · obtain ⟨hflat', hleaves', hindex'⟩ := moveNexts_on hflat k
    refine ⟨(moveNext_on hflat').1, hindex', ?_⟩
    rw [getDeepestFocusedCandidate_eq hflat', hleaves', hindex']
  · -- The number of steps from the focus to the leaf, around the end.
    refine ⟨(j + l.leaves.length - l.leafIndex) % l.leaves.length,
      ⟨Nat.mod_lt _ (by omega), ?_⟩, ?_⟩
    · rw [hindex, Nat.add_mod_mod,
        show l.leafIndex + (j + l.leaves.length - l.leafIndex) = j + l.leaves.length by omega,
        Nat.add_mod_right, Nat.mod_eq_of_lt hj]
    · rintro k ⟨hk, hkj⟩
      rw [hindex] at hkj
      by_cases hwrap : l.leafIndex + k < l.leaves.length
      · rw [Nat.mod_eq_of_lt hwrap] at hkj
        rw [show j + l.leaves.length - l.leafIndex = k + l.leaves.length by omega,
          Nat.add_mod_right, Nat.mod_eq_of_lt hk]
      · rw [Nat.mod_eq_sub_mod (by omega), Nat.mod_eq_of_lt (by omega)] at hkj
        rw [show j + l.leaves.length - l.leafIndex = k by omega, Nat.mod_eq_of_lt hk]
  · rw [hindex, Nat.add_mod_right, Nat.mod_eq_of_lt hlt]
  · exact (movePrev_on (moveNext_on hflat).2.1).1
  · exact (moveNext_movePrev_on hflat).2.2
  · obtain ⟨hflat', hleaves', hindex'⟩ := moveNext_movePrev_on hflat
    rw [getDeepestFocusedCandidate_eq hflat', getDeepestFocusedCandidate_eq hflat, hleaves', hindex']

/-- A leaf between two lists of two leaves each. -/
def fiveLeaves : CandidateList :=
  .mk { rotate := true }
    [.sub 0 0 (.mk {} [.leaf 1 0, .leaf 2 0]), .leaf 3 0,
      .sub 0 0 (.mk {} [.leaf 4 0, .leaf 5 0])]

theorem fiveLeaves_flat : fiveLeaves.Flat := by
  refine ⟨rfl, by decide, ?_⟩
  intro c hc
  simp only [fiveLeaves, CandidateList.candidates, List.mem_cons, List.not_mem_nil, or_false] at hc
  rcases hc with rfl | rfl | rfl
  · refine ⟨rfl, by decide, ?_⟩
    simp [CandidateList.candidates]
  · trivial
  · refine ⟨rfl, by decide, ?_⟩
    simp [CandidateList.candidates]

theorem moveNext_visits_leaves_five : ∃ l, Lib.Run Move.step (fun _ m => m = .next ∨ m = .prev)
    fiveLeaves [.prev, .next, .next] l ∧
    (∀ j < 5, ∃! k, k < 5 ∧ (l.moveNexts k).leafIndex = j) ∧
    l.moveNext.2.movePrev.2.leafIndex = 1 := by
  have hrun : Lib.Run Move.step (fun _ m => m = .next ∨ m = .prev) fiveLeaves
      [.prev, .next, .next] _ :=
    ((Lib.Run.nil.snoc (.inr rfl) rfl).snoc (.inl rfl) rfl).snoc (.inl rfl) rfl
  obtain ⟨_, hvisits, _, _, hback, _⟩ := moveNext_visits_leaves fiveLeaves_flat hrun
  exact ⟨_, hrun, hvisits, hback⟩

end Mozkey.Engine
