import Mozkey.Engine.CandidateList
import Mozkey.Lib.Runs

/-! The moves of a candidate list keep every focus on a candidate, as long as no position just
behind a page is asked for. -/

namespace Mozkey.Engine

namespace CandidateList

/-- Every focus is on a candidate, in the list and in its sublists, and every page has room for one.
A vector holds fewer than `2 ^ 63` candidates. -/
inductive Valid : CandidateList → Prop
  | mk {state candidates} : state.focusedIndex < candidates.length → 1 ≤ state.pageSize →
      candidates.length < 2 ^ 63 →
      (∀ id attributes list, Candidate.sub id attributes list ∈ candidates → Valid list) →
      Valid (.mk state candidates)

variable {l : CandidateList} {f : CandidateList → CandidateList}
  {move : CandidateList → Bool × CandidateList}

theorem Valid.focusedIndex_lt (h : l.Valid) : l.focusedIndex < l.size := by
  cases h
  assumption

theorem Valid.pageSize_pos (h : l.Valid) : 1 ≤ l.state.pageSize := by
  cases h
  assumption

theorem Valid.size_lt (h : l.Valid) : l.size < 2 ^ 63 := by
  cases h
  assumption

@[simp] theorem setFocusedIndex_focusedIndex (index : Nat) :
    (l.setFocusedIndex index).focusedIndex = index := by
  cases l
  rfl

@[simp] theorem mapFocusedSub_focusedIndex :
    (l.mapFocusedSub f).focusedIndex = l.focusedIndex := by
  cases l
  rfl

theorem Valid.setFocusedIndex (h : l.Valid) {index : Nat} (hindex : index < l.size) :
    (l.setFocusedIndex index).Valid := by
  obtain ⟨_, hpage, hsize, hsubs⟩ := h
  exact ⟨hindex, hpage, hsize, hsubs⟩

theorem Valid.moveFirst (h : l.Valid) : l.moveFirst.Valid :=
  h.setFocusedIndex (Nat.zero_lt_of_lt h.focusedIndex_lt)

theorem Valid.moveLast (h : l.Valid) : l.moveLast.Valid := by
  apply h.setFocusedIndex
  have := h.focusedIndex_lt
  omega

theorem Valid.mapFocusedSub (h : l.Valid) (hf : ∀ l, Valid l → (f l).Valid) :
    (l.mapFocusedSub f).Valid := by
  obtain @⟨state, candidates, hfocus, hpage, hsize, hsubs⟩ := h
  refine ⟨by simpa using hfocus, hpage, by simpa using hsize, ?_⟩
  intro id attributes list hmem
  obtain ⟨i, hi, hget⟩ := List.mem_iff_getElem.mp hmem
  rw [List.getElem_modify] at hget
  split at hget
  · -- The candidate at the focus has been changed by `f`.
    have hi : i < candidates.length := by simpa using hi
    have hold : candidates[i] ∈ candidates := List.getElem_mem hi
    cases hc : candidates[i] with
    | leaf => simp [hc, Candidate.mapSub] at hget
    | sub id' attributes' list' =>
      rw [hc] at hget hold
      simp only [Candidate.mapSub, Candidate.sub.injEq] at hget
      obtain ⟨-, -, rfl⟩ := hget
      exact hf _ (hsubs id' attributes' list' hold)
  · exact hsubs id attributes list (hget ▸ List.getElem_mem _)

/-- The candidates of a list whose sublists are valid. -/
def SubsValid (candidates : List Candidate) : Prop :=
  ∀ id attributes list, Candidate.sub id attributes list ∈ candidates → Valid list

theorem SubsValid.cons {c : Candidate} {cs : List Candidate}
    (hc : ∀ id attributes list, c = .sub id attributes list → Valid list) (hcs : SubsValid cs) :
    SubsValid (c :: cs) := by
  intro id attributes list hmem
  rcases List.mem_cons.mp hmem with h | h
  · exact hc id attributes list h.symm
  · exact hcs id attributes list h

theorem SubsValid.tail {c : Candidate} {cs : List Candidate} (h : SubsValid (c :: cs)) :
    SubsValid cs :=
  fun id attributes list hmem => h id attributes list (List.mem_cons_of_mem c hmem)

mutual

theorem moveFocused_valid (hmove : ∀ l, Valid l → (move l).2.Valid) :
    ∀ l : CandidateList, l.Valid → (moveFocused move l).2.Valid
  | .mk state candidates, h => by
    obtain ⟨hfocus, hpage, hsize, hsubs⟩ := h
    obtain ⟨hlength, hsubs'⟩ :=
      moveFocusedSub_valid hmove candidates state.focusedIndex hsubs
    have hvalid : Valid (.mk state (moveFocusedSub move candidates state.focusedIndex).2) :=
      ⟨hlength.symm ▸ hfocus, hpage, hlength.symm ▸ hsize, hsubs'⟩
    dsimp only [moveFocused]
    split
    · exact hvalid
    · exact hmove _ hvalid

theorem moveFocusedSub_valid (hmove : ∀ l, Valid l → (move l).2.Valid) :
    ∀ (candidates : List Candidate) (index : Nat), SubsValid candidates →
      (moveFocusedSub move candidates index).2.length = candidates.length ∧
        SubsValid (moveFocusedSub move candidates index).2
  | [], _, h => ⟨by simp [moveFocusedSub], by simpa [moveFocusedSub] using h⟩
  | .leaf _ _ :: _, 0, h => ⟨by simp [moveFocusedSub], by simpa [moveFocusedSub] using h⟩
  | .sub id attributes list :: candidates, 0, h => by
    have hlist := moveFocused_valid hmove list (h id attributes list List.mem_cons_self)
    refine ⟨by simp [moveFocusedSub], ?_⟩
    dsimp only [moveFocusedSub]
    apply SubsValid.cons
    · rintro _ _ _ ⟨⟩
      exact hlist
    · exact h.tail
  | .leaf id attributes :: candidates, index + 1, h => by
    obtain ⟨hlength, hsubs⟩ := moveFocusedSub_valid hmove candidates index h.tail
    refine ⟨by simp [moveFocusedSub, hlength], ?_⟩
    dsimp only [moveFocusedSub]
    apply SubsValid.cons
    · rintro _ _ _ ⟨⟩
    · exact hsubs
  | .sub id attributes list :: candidates, index + 1, h => by
    obtain ⟨hlength, hsubs⟩ := moveFocusedSub_valid hmove candidates index h.tail
    refine ⟨by simp [moveFocusedSub, hlength], ?_⟩
    dsimp only [moveFocusedSub]
    apply SubsValid.cons
    · rintro _ _ _ ⟨⟩
      exact h id attributes list List.mem_cons_self
    · exact hsubs

end

section Search

variable {A : Type} {goal : ListState → A → A} {start : ListState → Nat}
  {found : A → Candidate → Bool}

mutual

theorem moveTo_valid : ∀ (l : CandidateList) (a : A), l.Valid →
    ∀ l', l.moveTo goal start found a = some l' → l'.Valid
  | .mk state candidates, a, h, l', hl' => by
    obtain ⟨hfocus, hpage, hsize, hsubs⟩ := h
    dsimp only [moveTo] at hl'
    obtain ⟨index, hindex, hmoved⟩ := List.exists_of_findSome?_eq_some hl'
    obtain ⟨candidate, hcandidate, rfl⟩ := Option.map_eq_some_iff.mp hmoved
    have hlt : index < candidates.length := by
      obtain ⟨i, _, rfl⟩ := List.mem_map.mp hindex
      exact Nat.mod_lt _ (Nat.zero_lt_of_lt hfocus)
    refine ⟨by simpa using hlt, hpage, by simpa using hsize, ?_⟩
    intro id attributes list hmem
    rcases List.mem_or_eq_of_mem_set hmem with hmem | rfl
    · exact hsubs id attributes list hmem
    · have hcandidate := Option.join_eq_some_iff.mp hcandidate
      exact moveToCandidates_valid candidates _ hsubs _ _ _ (List.mem_of_getElem? hcandidate)

theorem moveToCandidates_valid : ∀ (candidates : List Candidate) (a : A), SubsValid candidates →
    ∀ id attributes list,
      some (.sub id attributes list) ∈ moveToCandidates goal start found a candidates → Valid list
  | [], _, _, _, _, _, hmem => by simp [moveToCandidates] at hmem
  | .leaf id' attributes' :: candidates, a, h, id, attributes, list, hmem => by
    rw [moveToCandidates] at hmem
    rcases List.mem_cons.mp hmem with hmem | hmem
    · split at hmem <;> simp at hmem
    · exact moveToCandidates_valid candidates a h.tail _ _ _ hmem
  | .sub id' attributes' list' :: candidates, a, h, id, attributes, list, hmem => by
    have hlist' := h id' attributes' list' List.mem_cons_self
    rw [moveToCandidates] at hmem
    rcases List.mem_cons.mp hmem with hmem | hmem
    · split at hmem
      · rename_i moved hmoved
        simp only [Option.some.injEq, Candidate.sub.injEq] at hmem
        obtain ⟨-, -, rfl⟩ := hmem
        exact moveTo_valid list' a hlist' _ hmoved
      · split at hmem
        · simp only [Option.some.injEq, Candidate.sub.injEq] at hmem
          obtain ⟨-, -, rfl⟩ := hmem
          exact hlist'
        · cases hmem
    · exact moveToCandidates_valid candidates a h.tail _ _ _ hmem

end

theorem found_valid (h : l.Valid) {moved : Option CandidateList}
    (hmoved : ∀ l', moved = some l' → l'.Valid) : (l.found moved).2.Valid := by
  cases moved with
  | none => exact h
  | some l' => exact hmoved l' rfl

end Search

/-! The moves of the list itself. -/

theorem moveNextHere_valid (h : l.Valid) : l.moveNextHere.2.Valid := by
  unfold moveNextHere
  split_ifs with hlast
  · exact h.moveFirst.mapFocusedSub fun _ h => h.moveFirst
  · exact h.moveFirst
  · apply Valid.mapFocusedSub _ fun _ h => h.moveFirst
    apply h.setFocusedIndex
    have := h.focusedIndex_lt
    simp only [isLast, beq_iff_eq] at hlast
    omega

theorem movePrevHere_valid (h : l.Valid) : l.movePrevHere.2.Valid := by
  unfold movePrevHere
  split_ifs
  · exact h.moveLast.mapFocusedSub fun _ h => h.moveLast
  · exact h.moveLast
  · apply Valid.mapFocusedSub _ fun _ h => h.moveLast
    apply h.setFocusedIndex
    have := h.focusedIndex_lt
    omega

theorem enterPage_valid {index : Nat} (h : l.Valid)
    (hindex : index - index % l.state.pageSize < l.size) :
    (l.setFocusedIndex index).enterPage.Valid := by
  unfold enterPage
  apply Valid.mapFocusedSub _ fun _ h => h.moveFirst
  cases l
  exact h.setFocusedIndex hindex

theorem moveNextPageHere_valid (h : l.Valid) : l.moveNextPageHere.2.Valid := by
  have hfocus := h.focusedIndex_lt
  unfold moveNextPageHere
  split_ifs with hlast
  · apply enterPage_valid h
    omega
  · exact h
  · apply enterPage_valid h
    simp only [isLastPage, getPageRange, beq_iff_eq] at hlast
    rw [Nat.add_mod_right]
    have := Nat.mod_le l.focusedIndex l.state.pageSize
    omega

theorem movePrevPageHere_valid (h : l.Valid) : l.movePrevPageHere.2.Valid := by
  have hfocus := h.focusedIndex_lt
  unfold movePrevPageHere
  split_ifs
  · apply enterPage_valid h
    omega
  · exact h
  · apply enterPage_valid h
    omega

/-! The position on the page. -/

/-- The focus is on the page that begins at `start` and ends before `stop`. -/
def FocusIn (start stop : Nat) (l : CandidateList) : Prop :=
  start ≤ l.focusedIndex ∧ l.focusedIndex < stop

/-- The page has the position, or the position is beyond its end in a way that the comparison of
`MoveToPageIndex` sees: neither just behind the page nor so far that the sum wraps around. -/
def PageIndexFits (pageIndex : UInt64) (l : CandidateList) : Prop :=
  let (start, stop) := l.getPageRange l.focusedIndex
  start + pageIndex.toNat < stop ∨
    stop < start + pageIndex.toNat ∧ start + pageIndex.toNat < 2 ^ 64

instance (pageIndex : UInt64) (l : CandidateList) : Decidable (l.PageIndexFits pageIndex) := by
  unfold PageIndexFits
  infer_instance

/-- What `MoveToPageIndex` is to do: where it succeeds, the page has the position, and the focus is
on a candidate of the page. -/
def PageIndexKept (pageIndex : UInt64) (l : CandidateList) : Prop :=
  (l.moveToPageIndex pageIndex).1 = true →
    (l.getPageRange l.focusedIndex).1 + pageIndex.toNat < (l.getPageRange l.focusedIndex).2 ∧
      (l.moveToPageIndex pageIndex).2.FocusIn (l.getPageRange l.focusedIndex).1
        (l.getPageRange l.focusedIndex).2

theorem getPageRange_le (h : l.Valid) :
    (l.getPageRange l.focusedIndex).1 ≤ l.focusedIndex ∧
      l.focusedIndex < (l.getPageRange l.focusedIndex).2 ∧
      (l.getPageRange l.focusedIndex).2 ≤ l.size := by
  have hfocus := h.focusedIndex_lt
  have hmod := Nat.mod_lt l.focusedIndex h.pageSize_pos
  have hle := Nat.mod_le l.focusedIndex l.state.pageSize
  dsimp only [getPageRange]
  omega

theorem moveToPageIndex_valid {pageIndex : UInt64} (h : l.Valid)
    (hfits : l.PageIndexFits pageIndex) : (l.moveToPageIndex pageIndex).2.Valid := by
  obtain ⟨_, _, hstop⟩ := getPageRange_le h
  have hsize := h.size_lt
  dsimp only [PageIndexFits] at hfits
  dsimp only [moveToPageIndex]
  split
  · exact h
  · apply Valid.mapFocusedSub _ fun _ h => h.moveFirst
    apply h.setFocusedIndex
    omega

theorem moveToPageIndex_kept_iff {pageIndex : UInt64} (h : l.Valid) :
    l.PageIndexKept pageIndex ↔ l.PageIndexFits pageIndex := by
  obtain ⟨_, _, hstop⟩ := getPageRange_le h
  have hsize := h.size_lt
  have hlt := pageIndex.toNat_lt
  simp only [PageIndexKept, PageIndexFits, FocusIn, moveToPageIndex]
  split
  · simp only [Bool.false_eq_true, false_implies, true_iff]
    omega
  · simp only [mapFocusedSub_focusedIndex, setFocusedIndex_focusedIndex, true_implies]
    omega

end CandidateList

/-! Runs. -/

namespace Move

/-- The move asks for no position that is taken by mistake. -/
def Fits (l : CandidateList) : Move → Prop
  | toPageIndex pageIndex => l.PageIndexFits pageIndex
  | _ => True

instance (l : CandidateList) : (m : Move) → Decidable (m.Fits l)
  | toPageIndex pageIndex => inferInstanceAs (Decidable (l.PageIndexFits pageIndex))
  | first | last | next | prev | nextPage | prevPage | toId _ | toAttributes _ =>
    inferInstanceAs (Decidable True)

/-- What is promised of a move: the focus stays on a candidate everywhere, and `MoveToPageIndex`
keeps to its page. -/
def Kept (l : CandidateList) (m : Move) : Prop :=
  (m.apply l).2.Valid ∧ ∀ pageIndex, m = toPageIndex pageIndex → l.PageIndexKept pageIndex

def step (l : CandidateList) (m : Move) : Option CandidateList := some (m.apply l).2

open CandidateList

variable {l l' : CandidateList}

theorem apply_valid {m : Move} (h : l.Valid) (hfits : m.Fits l) : (m.apply l).2.Valid := by
  cases m with
  | first => exact h.moveFirst
  | last => exact h.moveLast
  | next => exact moveFocused_valid (fun _ h => moveNextHere_valid h) l h
  | prev => exact moveFocused_valid (fun _ h => movePrevHere_valid h) l h
  | nextPage => exact moveFocused_valid (fun _ h => moveNextPageHere_valid h) l h
  | prevPage => exact moveFocused_valid (fun _ h => movePrevPageHere_valid h) l h
  | toId id => exact found_valid h fun l' hl' => moveTo_valid l id h l' hl'
  | toAttributes attributes => exact found_valid h fun l' hl' => moveTo_valid l attributes h l' hl'
  | toPageIndex pageIndex => exact moveToPageIndex_valid h hfits

theorem kept_iff_fits (h : l.Valid) (m : Move) : m.Kept l ↔ m.Fits l := by
  constructor
  · rintro ⟨_, hkept⟩
    cases m with
    | toPageIndex pageIndex => exact (moveToPageIndex_kept_iff h).mp (hkept pageIndex rfl)
    | _ => trivial
  · intro hfits
    refine ⟨apply_valid h hfits, ?_⟩
    rintro pageIndex rfl
    exact (moveToPageIndex_kept_iff h).mpr hfits

/-- In every run of moves that fit, every focus stays on a candidate, and a move keeps that and its
page exactly when it fits. -/
theorem run_keeps_focus {moves : List Move} (hl : l.Valid)
    (hrun : Lib.Run step (fun l m => m.Fits l) l moves l') :
    l'.Valid ∧ ∀ m : Move, m.Kept l' ↔ m.Fits l' := by
  have hvalid : l'.Valid := by
    apply hrun.inv hl
    rintro l m l'' hl hfits hstep
    obtain rfl := Option.some.inj hstep
    exact apply_valid hl hfits
  exact ⟨hvalid, kept_iff_fits hvalid⟩

/-- Three candidates on a page for two. -/
def threeCandidates : CandidateList :=
  .mk { pageSize := 2 } [.leaf 0 0, .sub 0 0 (.mk {} [.leaf 1 0, .leaf 2 0]), .leaf 3 0]

theorem threeCandidates_valid : threeCandidates.Valid := by
  refine ⟨by decide, by decide, by decide, ?_⟩
  intro id attributes list hmem
  simp only [List.mem_cons, Candidate.sub.injEq, reduceCtorEq, false_or, or_false, List.not_mem_nil]
    at hmem
  obtain ⟨-, -, rfl⟩ := hmem
  exact ⟨by decide, by decide, by decide, by simp⟩

theorem run_keeps_focus_three : ∃ l', Lib.Run step (fun l m => m.Fits l) threeCandidates
    [.next, .toPageIndex 0, .last] l' ∧ l'.Valid ∧ ∀ m : Move, m.Kept l' ↔ m.Fits l' := by
  have hrun : Lib.Run step (fun l m => m.Fits l) threeCandidates [.next, .toPageIndex 0, .last] _ :=
    .of_foldlM rfl
  exact ⟨_, hrun, run_keeps_focus threeCandidates_valid hrun⟩

/-- On a page of one candidate, the position 1 is taken for one of the page, and the focus goes
behind the last candidate. -/
theorem run_loses_focus : ¬ ∀ (l l' : CandidateList) (moves : List Move), l.Valid →
    Lib.Run step (fun _ _ => True) l moves l' → l'.Valid := by
  intro h
  have hvalid : (CandidateList.mk {} [.leaf 0 0]).Valid :=
    ⟨by decide, by decide, by decide, by simp⟩
  have hrun : Lib.Run step (fun _ _ => True) (CandidateList.mk {} [.leaf 0 0])
      [.toPageIndex 1] _ := .of_foldlM rfl
  exact absurd (h _ _ _ hvalid hrun).focusedIndex_lt (by decide)

end Move

end Mozkey.Engine
