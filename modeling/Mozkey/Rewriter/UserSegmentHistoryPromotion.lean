import Mozkey.Rewriter.UserSegmentHistoryRewrite

/-! `Rewrite` keeps the candidates of a segment and puts the promoted ones before them, by falling
scores; its scoring loops reach every candidate once if the offset is the number of meta
candidates. -/

namespace Mozkey.Rewriter

open Base Storage

section indices

variable {segment : HistorySegment} {offset : Nat}

/-- Every candidate and meta candidate is scored once, and nothing else. -/
def ScoresOnce (segment : HistorySegment) (indices : List Int) : Prop :=
  indices.Nodup ∧ ∀ j, j ∈ indices ↔ segment.isValidIndex j = true

theorem isValidIndex_iff {j : Int} : segment.isValidIndex j = true ↔
    -segment.metaCandidatesSize ≤ j ∧ j < segment.candidatesSize := by
  cases j with
  | ofNat i => simp [HistorySegment.isValidIndex]
  | negSucc i =>
    simp only [HistorySegment.isValidIndex, decide_eq_true_eq]
    omega

theorem mem_scoredIndices {j : Int} : j ∈ scoredIndices segment offset ↔
    (0 ≤ j ∧ j < segment.candidatesSize) ∨
      (-offset ≤ j ∧ j < (segment.metaCandidatesSize : Int) - offset) := by
  simp only [scoredIndices, List.mem_map, List.mem_range]
  constructor
  · rintro ⟨l, hl, rfl⟩
    split <;> omega
  · rintro (⟨h0, hlt⟩ | ⟨hge, hlt⟩)
    · exact ⟨j.toNat, by omega, by rw [if_neg (by omega)]; omega⟩
    · refine ⟨(j + (segment.candidatesSize + offset)).toNat, by omega, ?_⟩
      rw [if_pos (by omega)]
      omega

theorem scoresOnce_meta : ScoresOnce segment (scoredIndices segment segment.metaCandidatesSize) := by
  constructor
  · refine List.Nodup.map_on (fun l hl l' hl' heq => ?_) List.nodup_range
    rw [List.mem_range] at hl hl'
    split at heq <;> split at heq <;> omega
  · intro j
    rw [mem_scoredIndices, isValidIndex_iff]
    omega

theorem scoresOnce_iff : ScoresOnce segment (scoredIndices segment offset) ↔
    segment.metaCandidatesSize = 0 ∨ segment.metaCandidatesSize = offset := by
  constructor
  · rintro ⟨-, hmem⟩
    by_contra hne
    have hlast := hmem (-1)
    have hfirst := hmem (-offset)
    have hmeta := hmem (-segment.metaCandidatesSize)
    rw [mem_scoredIndices, isValidIndex_iff] at hlast hfirst hmeta
    omega
  · rintro (hzero | rfl)
    · have heq : scoredIndices segment offset =
          scoredIndices segment segment.metaCandidatesSize := by
        refine List.map_congr_left fun l hl => ?_
        rw [List.mem_range] at hl
        rw [if_neg (by omega), if_neg (by omega)]
      rw [heq]
      exact scoresOnce_meta
    · exact scoresOnce_meta

end indices

section order

theorem sortsBefore_iff {a b : ScoreCandidate} : SortsBefore a b ↔
    b.score.score < a.score.score ∨
      b.score.score = a.score.score ∧ b.score.lastAccessTime ≤ a.score.lastAccessTime := by
  rw [SortsBefore, Score.Above]
  split <;> omega

instance : IsTrans ScoreCandidate SortsBefore :=
  ⟨fun a b c hab hbc => by
    rw [sortsBefore_iff] at *
    omega⟩

instance : Std.Total SortsBefore :=
  ⟨fun a b => by
    rw [sortsBefore_iff, sortsBefore_iff]
    omega⟩

end order

section promotion

variable {forms : ConversionForms} {segment : HistorySegment} {front rest : List HistoryCandidate}

theorem insertCandidate_front (segment : HistorySegment) (h : segment.candidates = front ++ rest)
    (c : HistoryCandidate) :
    (segment.insertCandidate front.length c).candidates = front ++ c :: rest := by
  simp [HistorySegment.insertCandidate, h]

theorem moveCandidate_front (h : segment.candidates = front ++ rest) {k : Nat} (hk : k < rest.length) :
    (segment.moveCandidate (Int.ofNat (front.length + k)) front.length).candidates =
      front ++ rest.get ⟨k, hk⟩ :: rest.eraseIdx k := by
  have hget : segment.candidate (front.length + k : Nat) = rest.get ⟨k, hk⟩ := by
    show segment.candidates.getD (front.length + k) {} = _
    rw [h, List.getD_append_right _ _ _ _ (Nat.le_add_right _ _), Nat.add_sub_cancel_left,
      List.getD_eq_getElem _ _ hk]
    rfl
  have herase : segment.candidates.eraseIdx (front.length + k) = front ++ rest.eraseIdx k := by
    rw [h, List.eraseIdx_append_of_length_le (Nat.le_add_right _ _), Nat.add_sub_cancel_left]
  rw [HistorySegment.moveCandidate]
  split
  · rename_i hsame
    have hsize : segment.candidatesSize = front.length + rest.length := by
      simp [HistorySegment.candidatesSize, h]
    obtain rfl : k = 0 := by omega
    obtain ⟨c, rest, rfl⟩ := List.exists_cons_of_length_pos hk
    exact h
  · rw [← hget]
    exact insertCandidate_front
      { segment with candidates := segment.candidates.eraseIdx (front.length + k) } herase _

theorem le_findIdx? {v : Bytes} {i : Nat} (h : segment.candidates = front ++ rest)
    (hv : v ∉ front.map HistoryCandidate.value)
    (hi : (segment.candidates.findIdx? fun other => other.value = v) = some i) :
    ∃ k, ∃ hk : k < rest.length, i = front.length + k ∧ (rest.get ⟨k, hk⟩).value = v := by
  obtain ⟨hlt, hvalue, -⟩ := List.findIdx?_eq_some_iff_getElem.mp hi
  have hge : front.length ≤ i := by
    by_contra hlt'
    refine hv (List.mem_map.mpr ⟨segment.candidates.get ⟨i, hlt⟩, ?_, of_decide_eq_true hvalue⟩)
    simp only [h, List.get_eq_getElem]
    rw [List.getElem_append_left (by omega)]
    exact List.getElem_mem _
  have hlt' : i - front.length < rest.length := by
    simp only [h, List.length_append] at hlt
    omega
  refine ⟨i - front.length, hlt', by omega, ?_⟩
  have hvalue' := of_decide_eq_true hvalue
  simp only [h] at hvalue'
  rwa [List.getElem_append_right hge] at hvalue'

def IsNormalized (forms : ConversionForms) (x : ScoreCandidate) (value : Bytes) : Prop :=
  ∃ (segment : HistorySegment) (n : Int), (segment.candidate n).value = x.candidate.value ∧
    value = normalizeCandidate forms segment n

/-- The candidates `new` are the promoted ones, each by a score, before the rest of the old ones. -/
structure Promotes (forms : ConversionForms) (scores : List ScoreCandidate)
    (old new : List HistoryCandidate) (promoted : List (ScoreCandidate × HistoryCandidate))
    (rest : List HistoryCandidate) : Prop where
  eq_append : new = promoted.map Prod.snd ++ rest
  old_rest : rest.Sublist old
  keeps : old.Subperm new
  scored : ∀ p ∈ promoted, p.1 ∈ scores
  sorted : (promoted.map Prod.fst).Pairwise SortsBefore
  nodup : (promoted.map fun p => p.2.value).Nodup
  normalized : ∀ p ∈ promoted, IsNormalized forms p.1 p.2.value

/-- The loop of `SortCandidates` after it has promoted the front. -/
structure SortsRest (forms : ConversionForms) (xs : List ScoreCandidate)
    (front rest new : List HistoryCandidate) (promoted : List (ScoreCandidate × HistoryCandidate))
    (rest' : List HistoryCandidate) : Prop where
  eq_append : new = front ++ promoted.map Prod.snd ++ rest'
  old_rest : rest'.Sublist rest
  keeps : rest.Subperm (promoted.map Prod.snd ++ rest')
  sublist : (promoted.map Prod.fst).Sublist xs
  nodup : ((front ++ promoted.map Prod.snd).map HistoryCandidate.value).Nodup
  normalized : ∀ p ∈ promoted, IsNormalized forms p.1 p.2.value

theorem SortsRest.refl {xs : List ScoreCandidate}
    (hnodup : (front.map HistoryCandidate.value).Nodup) :
    SortsRest forms xs front rest (front ++ rest) [] rest :=
  ⟨by simp, List.Sublist.refl _, List.Subperm.refl _, List.nil_sublist _, by simpa using hnodup,
    fun _ hp => (List.not_mem_nil hp).elim⟩

theorem SortsRest.skip {x : ScoreCandidate} {xs : List ScoreCandidate} {new rest' : List HistoryCandidate}
    {promoted : List (ScoreCandidate × HistoryCandidate)}
    (h : SortsRest forms xs front rest new promoted rest') :
    SortsRest forms (x :: xs) front rest new promoted rest' :=
  { h with sublist := h.sublist.cons x }

theorem SortsRest.promote {x : ScoreCandidate} {xs : List ScoreCandidate} {c : HistoryCandidate}
    {rest₁ new rest' : List HistoryCandidate} {promoted : List (ScoreCandidate × HistoryCandidate)}
    (h : SortsRest forms xs (front ++ [c]) rest₁ new promoted rest') (hrest : rest₁.Sublist rest)
    (hkeeps : rest.Subperm (c :: rest₁)) (hnormal : IsNormalized forms x c.value) :
    SortsRest forms (x :: xs) front rest new ((x, c) :: promoted) rest' where
  eq_append := by simp [h.eq_append]
  old_rest := h.old_rest.trans hrest
  keeps := hkeeps.trans ((List.subperm_cons c).mpr h.keeps)
  sublist := h.sublist.cons_cons x
  nodup := by simpa using h.nodup
  normalized := by
    rintro p (_ | ⟨_, hp⟩)
    · exact hnormal
    · exact h.normalized p hp

theorem candidate_of_position {candidate : HistoryCandidate} {position : Int}
    (h : getSameValueCandidatePosition segment candidate = some position) :
    (segment.candidate position).value = candidate.value := by
  rw [getSameValueCandidatePosition] at h
  split at h
  · rename_i i hi
    obtain rfl := Option.some.inj h
    obtain ⟨hlt, hvalue, -⟩ := List.findIdx?_eq_some_iff_getElem.mp hi
    show (segment.candidates.getD i {}).value = _
    rw [List.getD_eq_getElem _ _ hlt]
    exact of_decide_eq_true hvalue
  · obtain ⟨i, hi, rfl⟩ := Option.map_eq_some_iff.mp h
    obtain ⟨hlt, hvalue, -⟩ := List.findIdx?_eq_some_iff_getElem.mp hi
    show (segment.metaCandidates.getD (if i < segment.metaCandidates.length then i else 0) {}).value = _
    rw [if_pos hlt, List.getD_eq_getElem _ _ hlt]
    exact of_decide_eq_true hvalue

theorem move_position {candidate : HistoryCandidate} {position : Int}
    (h : segment.candidates = front ++ rest)
    (hposition : getSameValueCandidatePosition segment candidate = some position)
    (hnew : candidate.value ∉ front.map HistoryCandidate.value) :
    ∃ c rest₁, (segment.moveCandidate position front.length).candidates = front ++ c :: rest₁ ∧
      c.value = candidate.value ∧ rest₁.Sublist rest ∧ rest.Subperm (c :: rest₁) := by
  have hvalue := candidate_of_position hposition
  rw [getSameValueCandidatePosition] at hposition
  split at hposition
  · rename_i i hi
    obtain rfl := Option.some.inj hposition
    obtain ⟨k, hk, rfl, hget⟩ := le_findIdx? h hnew hi
    exact ⟨_, _, moveCandidate_front h hk, hget, List.eraseIdx_sublist _ _,
      (List.getElem_cons_eraseIdx_perm hk).symm.subperm⟩
  · obtain ⟨i, -, rfl⟩ := Option.map_eq_some_iff.mp hposition
    exact ⟨_, rest, insertCandidate_front segment h _, hvalue, List.Sublist.refl _,
      (List.sublist_cons_self _ _).subperm⟩

theorem move_normalized {value : Bytes} {i : Nat} (h : segment.candidates = front ++ rest)
    (hi : (segment.candidates.findIdx? fun other => other.value = value) = some i)
    (hnew : value ∉ front.map HistoryCandidate.value) :
    ∃ c rest₁, (segment.moveCandidate (Int.ofNat i) front.length).candidates = front ++ c :: rest₁ ∧
      c.value = value ∧ rest₁.Sublist rest ∧ rest.Subperm (c :: rest₁) := by
  obtain ⟨k, hk, rfl, hget⟩ := le_findIdx? h hnew hi
  exact ⟨_, _, moveCandidate_front h hk, hget, List.eraseIdx_sublist _ _,
    (List.getElem_cons_eraseIdx_perm hk).symm.subperm⟩

theorem sortLoop_spec (forms : ConversionForms) (topScore : Nat) (xs : List ScoreCandidate)
    (segment : HistorySegment) (front rest : List HistoryCandidate) (seen : List Bytes)
    (h : segment.candidates = front ++ rest)
    (hseen : ∀ v, v ∈ seen ↔ v ∈ front.map HistoryCandidate.value)
    (hnodup : (front.map HistoryCandidate.value).Nodup) :
    ∃ promoted rest', SortsRest forms xs front rest
      (sortLoop forms topScore xs front.length seen segment).2.candidates promoted rest' := by
  induction xs generalizing segment front rest seen with
  | nil =>
    rw [sortLoop, h]
    exact ⟨[], rest, .refl hnodup⟩
  | cons x xs ih =>
    -- a candidate `c` of a new value is now at the end of the front
    have hpromote : ∀ {segment' : HistorySegment} {c : HistoryCandidate}
        {rest₁ : List HistoryCandidate}, segment'.candidates = front ++ c :: rest₁ →
        c.value ∉ front.map HistoryCandidate.value → rest₁.Sublist rest →
        rest.Subperm (c :: rest₁) → IsNormalized forms x c.value →
        ∃ promoted rest', SortsRest forms (x :: xs) front rest
          (sortLoop forms topScore xs (front.length + 1) (c.value :: seen) segment').2.candidates
          promoted rest' := by
      intro segment' c rest₁ hcandidates hnew hrest hkeeps hnormal
      have hfront : front.length + 1 = (front ++ [c]).length := by simp
      rw [hfront]
      obtain ⟨promoted, rest', hsorts⟩ := ih segment' (front ++ [c]) rest₁ (c.value :: seen)
        (by simpa using hcandidates)
        (fun v => by simp [hseen, or_comm]) (by
          rw [List.map_append, List.map_singleton]
          exact hnodup.append (List.nodup_singleton _) (by simpa using hnew))
      exact ⟨_, _, hsorts.promote hrest hkeeps hnormal⟩
    rw [sortLoop]
    split
    · rw [h]
      exact ⟨[], rest, .refl hnodup⟩
    split
    · rw [h]
      exact ⟨[], rest, .refl hnodup⟩
    rename_i position hposition
    have hsame := candidate_of_position hposition
    have hskip : ∃ promoted rest', SortsRest forms (x :: xs) front rest
        (sortLoop forms topScore xs front.length seen segment).2.candidates promoted rest' := by
      obtain ⟨promoted, rest', hsorts⟩ := ih segment front rest seen h hseen hnodup
      exact ⟨promoted, rest', hsorts.skip⟩
    simp only
    split
    · split
      · rename_i i hi
        split
        · rename_i hnew
          rw [hseen] at hnew
          obtain ⟨c, rest₁, hcandidates, hvalue, hrest, hkeeps⟩ := move_normalized h hi hnew
          rw [← hvalue] at hnew ⊢
          exact hpromote hcandidates hnew hrest hkeeps ⟨segment, position, hsame, hvalue⟩
        · exact hskip
      · -- no candidate has the normalized value, so the front has none
        rename_i hnone
        have hcandidates := insertCandidate_front segment h { x.candidate with
          value := normalizeCandidate forms segment position
          contentValue := forms.convertConversionString x.candidate.contentValue }
        refine hpromote hcandidates (fun hmem => ?_) (List.Sublist.refl _)
          (List.sublist_cons_self _ _).subperm ⟨segment, position, hsame, rfl⟩
        obtain ⟨c, hc, hvalue⟩ := List.mem_map.mp hmem
        have := List.findIdx?_eq_none_iff.mp hnone c (by rw [h]; exact List.mem_append_left _ hc)
        simp [hvalue] at this
    · rename_i heq
      split
      · rename_i hnew
        rw [hseen] at hnew
        obtain ⟨c, rest₁, hcandidates, hvalue, hrest, hkeeps⟩ := move_position h hposition hnew
        rw [← hvalue] at hnew ⊢
        exact hpromote hcandidates hnew hrest hkeeps
          ⟨segment, position, hsame, hvalue.trans (not_not.mp heq).symm⟩
      · exact hskip

theorem sortCandidates_spec (forms : ConversionForms) (scores : List ScoreCandidate)
    (segment : HistorySegment) : ∃ promoted rest, Promotes forms scores segment.candidates
      (sortCandidates forms scores segment).2.candidates promoted rest := by
  obtain ⟨promoted, rest, h⟩ := sortLoop_spec forms
    (((scores.insertionSort SortsBefore).head?.map fun x => x.score.score).getD 0)
    ((scores.insertionSort SortsBefore).take kMaxRerankSize) segment [] segment.candidates []
    rfl (by simp) List.nodup_nil
  have hsublist := h.sublist.trans (List.take_sublist _ _)
  have heq : (sortCandidates forms scores segment).2.candidates =
      promoted.map Prod.snd ++ rest := h.eq_append
  have hnodup := h.nodup
  rw [List.nil_append, List.map_map] at hnodup
  refine ⟨promoted, rest, heq, h.old_rest, heq ▸ h.keeps, fun p hp => ?_, ?_, hnodup,
    h.normalized⟩
  · exact (List.perm_insertionSort SortsBefore scores).mem_iff.mp
      (hsublist.subset (List.mem_map_of_mem hp))
  · exact (List.pairwise_insertionSort SortsBefore scores).sublist hsublist

end promotion

/-- A candidate without its attributes, which `Rewrite` marks. -/
def HistoryCandidate.plain (candidate : HistoryCandidate) : HistoryCandidate :=
  { candidate with attributes := 0 }

section marks

variable {segment : HistorySegment}

@[simp] theorem plain_addAttribute (c : HistoryCandidate) (bit : UInt32) :
    (c.addAttribute bit).plain = c.plain := rfl

theorem plain_modifyTop {f : HistoryCandidate → HistoryCandidate} (hf : ∀ c, (f c).plain = c.plain) :
    (segment.modifyTop f).candidates.map HistoryCandidate.plain =
      segment.candidates.map HistoryCandidate.plain := by
  rw [HistorySegment.modifyTop]
  cases segment.candidates with
  | nil => rfl
  | cons c cs => simp [hf]

theorem plain_updateBestCandidate : (updateBestCandidate segment).candidates.map
    HistoryCandidate.plain = segment.candidates.map HistoryCandidate.plain := by
  rw [updateBestCandidate]
  split
  · rfl
  · rw [plain_modifyTop fun c => by rw [plain_addAttribute, plain_addAttribute]]
    simp [Function.comp_def, HistoryCandidate.plain]

theorem plain_markRewritten (sorted : Bool) (oldTopValue : Bytes) :
    (markRewritten sorted oldTopValue segment).candidates.map HistoryCandidate.plain =
      segment.candidates.map HistoryCandidate.plain := by
  rw [markRewritten]
  split
  · exact plain_updateBestCandidate
  split
  · exact plain_modifyTop fun c => plain_addAttribute c _
  · rfl

variable {forms : ConversionForms} {scores : List ScoreCandidate} {old new : List HistoryCandidate}
  {promoted : List (ScoreCandidate × HistoryCandidate)} {rest : List HistoryCandidate}

theorem Promotes.plain (h : Promotes forms scores old new promoted rest) :
    Promotes forms scores (old.map HistoryCandidate.plain) (new.map HistoryCandidate.plain)
      (promoted.map fun p => (p.1, p.2.plain)) (rest.map HistoryCandidate.plain) where
  eq_append := by simp [h.eq_append]
  old_rest := h.old_rest.map _
  keeps := by
    obtain ⟨kept, hperm, hsublist⟩ := h.keeps
    exact ⟨kept.map _, hperm.map _, hsublist.map _⟩
  scored := by
    intro p hp
    obtain ⟨q, hq, rfl⟩ := List.mem_map.mp hp
    exact h.scored q hq
  sorted := by simpa [Function.comp_def] using h.sorted
  nodup := by simpa [Function.comp_def, HistoryCandidate.plain] using h.nodup
  normalized := by
    intro p hp
    obtain ⟨q, hq, rfl⟩ := List.mem_map.mp hp
    exact h.normalized q hq

theorem Promotes.refl (scores : List ScoreCandidate) : Promotes forms scores old old [] old :=
  ⟨rfl, List.Sublist.refl _, List.Subperm.refl _, fun _ hp => (List.not_mem_nil hp).elim,
    List.Pairwise.nil, List.nodup_nil, fun _ hp => (List.not_mem_nil hp).elim⟩

end marks

section loop

variable {pos : PosData} {forms : ConversionForms} {request : RewriteRequest} {s : LruStorage 4}
  {segments : HistorySegments} {i k : Nat} {is : List Nat}

theorem segment_setSegment (hi : i < segments.segmentsSize) (segment : HistorySegment) :
    (setSegment segments i segment).segment i = segment := by
  rw [HistorySegments.segment, setSegment, List.getD_eq_getElem?_getD, List.getElem?_set_self hi]
  rfl

theorem segment_setSegment_ne (hne : k ≠ i) (segment : HistorySegment) :
    (setSegment segments i segment).segment k = segments.segment k := by
  rw [HistorySegments.segment, setSegment, List.getD_eq_getElem?_getD,
    List.getElem?_set_ne hne.symm, HistorySegments.segment, List.getD_eq_getElem?_getD]

theorem rewriteSegment_cases (pos : PosData) (forms : ConversionForms) (request : RewriteRequest)
    (s : LruStorage 4) (segments : HistorySegments) (i : Nat) :
    (rewriteSegment pos forms request s segments i).2 = segments ∨
    ∃ segment, (rewriteSegment pos forms request s segments i).2 = setSegment segments i segment ∧
      segment.candidates.map HistoryCandidate.plain =
        (sortCandidates forms (rewriteScores pos request s segments i)
          (segments.segment i)).2.candidates.map HistoryCandidate.plain := by
  rw [rewriteSegment, rewriteScores]
  cases treatment pos request s (segments.segment i) with
  | skipped => exact .inl rfl
  | number =>
    simp only
    split
    · exact .inl rfl
    · exact .inr ⟨_, rfl, rfl⟩
  | scored =>
    simp only
    split
    · exact .inl rfl
    · exact .inr ⟨_, rfl, plain_markRewritten _ _⟩

theorem segment_rewriteSegment_ne (hne : k ≠ i) :
    (rewriteSegment pos forms request s segments i).2.segment k = segments.segment k := by
  rcases rewriteSegment_cases pos forms request s segments i with h | ⟨segment, h, -⟩
  · rw [h]
  · rw [h, segment_setSegment_ne hne]

theorem segmentsSize_rewriteSegment :
    (rewriteSegment pos forms request s segments i).2.segmentsSize = segments.segmentsSize := by
  rcases rewriteSegment_cases pos forms request s segments i with h | ⟨segment, h, -⟩
  · rw [h]
  · rw [h, HistorySegments.segmentsSize, setSegment, List.length_set, HistorySegments.segmentsSize]

theorem promotes_rewriteSegment (hi : i < segments.segmentsSize) : ∃ promoted rest,
    Promotes forms (rewriteScores pos request s segments i)
      ((segments.segment i).candidates.map HistoryCandidate.plain)
      (((rewriteSegment pos forms request s segments i).2.segment i).candidates.map
        HistoryCandidate.plain) promoted rest := by
  rcases rewriteSegment_cases pos forms request s segments i with h | ⟨segment, h, hplain⟩
  · rw [h]
    exact ⟨[], _, .refl _⟩
  · obtain ⟨promoted, rest, hpromotes⟩ :=
      sortCandidates_spec forms (rewriteScores pos request s segments i) (segments.segment i)
    rw [h, segment_setSegment hi, hplain]
    exact ⟨_, _, hpromotes.plain⟩

theorem segmentsSize_rewriteLoop :
    (rewriteLoop pos forms request s is segments).2.segmentsSize = segments.segmentsSize := by
  induction is generalizing segments with
  | nil => rfl
  | cons i is ih => exact ih.trans segmentsSize_rewriteSegment

theorem segment_rewriteLoop_of_notMem (hk : k ∉ is) :
    (rewriteLoop pos forms request s is segments).2.segment k = segments.segment k := by
  induction is generalizing segments with
  | nil => rfl
  | cons i is ih =>
    exact (ih (List.not_mem_of_not_mem_cons hk)).trans
      (segment_rewriteSegment_ne (List.ne_of_not_mem_cons hk))

def segmentsAt (pos : PosData) (forms : ConversionForms) (request : RewriteRequest)
    (s : LruStorage 4) (is : List Nat) (segments : HistorySegments) (k : Nat) : HistorySegments :=
  (rewriteLoop pos forms request s (is.takeWhile fun i => i ≠ k) segments).2

theorem segment_segmentsAt :
    (segmentsAt pos forms request s is segments k).segment k = segments.segment k :=
  segment_rewriteLoop_of_notMem fun hmem => by simpa using List.mem_takeWhile_imp hmem

theorem segment_rewriteLoop (hnodup : is.Nodup) (hk : k ∈ is) :
    (rewriteLoop pos forms request s is segments).2.segment k =
      (rewriteSegment pos forms request s
        (segmentsAt pos forms request s is segments k) k).2.segment k := by
  induction is generalizing segments with
  | nil => exact (List.not_mem_nil hk).elim
  | cons i is ih =>
    obtain ⟨hnot, hnodup⟩ := List.nodup_cons.mp hnodup
    rcases eq_or_ne i k with rfl | hne
    · have hat : segmentsAt pos forms request s (i :: is) segments i = segments := by
        simp [segmentsAt, rewriteLoop]
      rw [hat]
      exact segment_rewriteLoop_of_notMem hnot
    · have hat : segmentsAt pos forms request s (i :: is) segments k =
          segmentsAt pos forms request s is
            (rewriteSegment pos forms request s segments i).2 k := by
        simp [segmentsAt, hne, rewriteLoop]
      rw [hat]
      exact ih hnodup ((List.mem_cons.mp hk).resolve_left hne.symm)

end loop

section rewrite

variable (pos : PosData) (forms : ConversionForms) (request : RewriteRequest)
  (s : LearnedStorage) (segments : HistorySegments) (pendingRevert : Option PendingRevert)

def visitedIndices : List Nat :=
  if isAvailable request segments && request.historyLearningLevel ≠ .noHistory then
    conversionIndices segments
  else []

/-- Each segment that `Rewrite` scores has every candidate and meta candidate scored once, and the
candidates of every segment stay, the promoted ones before the others. -/
def RewritesWell : Prop :=
  ∃ modified after pendingRevert' s',
    rewrite pos forms request s.storage segments pendingRevert =
      some (modified, after, pendingRevert', s') ∧
    after.segmentsSize = segments.segmentsSize ∧
    (∀ i ∈ visitedIndices request segments, ∀ indices,
      rewriteIndices pos request s' ((markBest segments).segment i) = some indices →
        ScoresOnce (segments.segment i) indices) ∧
    ∀ i < segments.segmentsSize, ∃ promoted rest,
      Promotes forms
        (if i ∈ visitedIndices request segments then
          rewriteScores pos request s' (segmentsAt pos forms request s'
            (visitedIndices request segments) (markBest segments) i) i
        else [])
        ((segments.segment i).candidates.map HistoryCandidate.plain)
        ((after.segment i).candidates.map HistoryCandidate.plain) promoted rest

/-- The segments that are scored by their features have no meta candidate or one for each
transliteration type. -/
def OffsetFits : Prop :=
  ∀ pendingRevert' s', applyPendingRevert request s.storage pendingRevert =
    some (pendingRevert', s') →
    ∀ i ∈ visitedIndices request segments,
      treatment pos request s' ((markBest segments).segment i) = .scored →
        (segments.segment i).metaCandidatesSize = 0 ∨
          (segments.segment i).metaCandidatesSize = numT13nTypes

variable {segments}

theorem segment_markBest (i : Nat) : (markBest segments).segment i =
    (segments.segment i).modifyTop fun candidate =>
      candidate.addAttribute Attribute.bestCandidate := by
  simp only [HistorySegments.segment, markBest, List.getD_eq_getElem?_getD, List.getElem?_map]
  cases segments.segments[i]? <;> rfl

@[simp] theorem candidatesSize_markBest (i : Nat) :
    ((markBest segments).segment i).candidatesSize = (segments.segment i).candidatesSize := by
  rw [segment_markBest, HistorySegment.candidatesSize, HistorySegment.modifyTop, List.length_modify,
    HistorySegment.candidatesSize]

@[simp] theorem metaCandidatesSize_markBest (i : Nat) :
    ((markBest segments).segment i).metaCandidatesSize =
      (segments.segment i).metaCandidatesSize := by
  rw [segment_markBest]
  rfl

theorem plain_markBest (i : Nat) :
    ((markBest segments).segment i).candidates.map HistoryCandidate.plain =
      (segments.segment i).candidates.map HistoryCandidate.plain := by
  rw [segment_markBest, plain_modifyTop fun c => plain_addAttribute c _]

theorem nodup_visitedIndices : (visitedIndices request segments).Nodup := by
  rw [visitedIndices]
  split
  · exact List.nodup_range.sublist (List.drop_sublist _ _)
  · exact List.nodup_nil

theorem scoresOnce_rewriteIndices_iff (s : LruStorage 4) (i : Nat) :
    (∀ indices, rewriteIndices pos request s ((markBest segments).segment i) = some indices →
      ScoresOnce (segments.segment i) indices) ↔
    (treatment pos request s ((markBest segments).segment i) = .scored →
      (segments.segment i).metaCandidatesSize = 0 ∨
        (segments.segment i).metaCandidatesSize = numT13nTypes) := by
  have honce : ∀ indices, ScoresOnce (segments.segment i) indices ↔
      ScoresOnce ((markBest segments).segment i) indices := fun indices => by
    simp only [ScoresOnce, isValidIndex_iff, candidatesSize_markBest, metaCandidatesSize_markBest]
  rw [rewriteIndices]
  cases treatment pos request s ((markBest segments).segment i) with
  | skipped => simp
  | number =>
    refine iff_of_true (fun indices heq => ?_) (fun heq => by cases heq)
    obtain rfl := Option.some.inj heq
    exact (honce _).mpr scoresOnce_meta
  | scored => simp [honce, scoresOnce_iff]

theorem rewriteSegments_eq (s : LruStorage 4) :
    (rewriteSegments pos forms request s segments).2 =
      if isAvailable request segments && request.historyLearningLevel ≠ .noHistory then
        (rewriteLoop pos forms request s (visitedIndices request segments) (markBest segments)).2
      else segments := by
  rw [rewriteSegments, visitedIndices]
  by_cases havailable : isAvailable request segments = true <;>
    by_cases hlevel : request.historyLearningLevel = .noHistory <;> simp [havailable, hlevel]

theorem promotes_rewriteSegments (s : LruStorage 4) {i : Nat} (hi : i < segments.segmentsSize) :
    ∃ promoted rest, Promotes forms
      (if i ∈ visitedIndices request segments then
        rewriteScores pos request s (segmentsAt pos forms request s
          (visitedIndices request segments) (markBest segments) i) i
      else [])
      ((segments.segment i).candidates.map HistoryCandidate.plain)
      (((rewriteSegments pos forms request s segments).2.segment i).candidates.map
        HistoryCandidate.plain) promoted rest := by
  have hat : (segmentsAt pos forms request s (visitedIndices request segments)
      (markBest segments) i).segment i = (markBest segments).segment i := segment_segmentsAt
  have hsize : i < (segmentsAt pos forms request s (visitedIndices request segments)
      (markBest segments) i).segmentsSize := by
    rw [segmentsAt, segmentsSize_rewriteLoop]
    simpa [markBest, HistorySegments.segmentsSize] using hi
  rw [rewriteSegments_eq]
  by_cases hmem : i ∈ visitedIndices request segments
  · have hvisits : (isAvailable request segments &&
        request.historyLearningLevel ≠ .noHistory) = true := by
      by_contra hnot
      rw [visitedIndices, if_neg hnot] at hmem
      exact List.not_mem_nil hmem
    rw [if_pos hmem, if_pos hvisits, segment_rewriteLoop (nodup_visitedIndices request) hmem,
      ← plain_markBest, ← hat]
    exact promotes_rewriteSegment hsize
  · rw [if_neg hmem]
    split
    · rw [segment_rewriteLoop_of_notMem hmem, plain_markBest]
      exact ⟨[], _, .refl _⟩
    · exact ⟨[], _, .refl _⟩

theorem segmentsSize_rewriteSegments (s : LruStorage 4) :
    (rewriteSegments pos forms request s segments).2.segmentsSize = segments.segmentsSize := by
  rw [rewriteSegments_eq]
  split
  · rw [segmentsSize_rewriteLoop]
    simp [markBest, HistorySegments.segmentsSize]
  · rfl

theorem applyPendingRevert_some (request : RewriteRequest) (s : LearnedStorage)
    (pendingRevert : Option PendingRevert) : ∃ pendingRevert' s',
      applyPendingRevert request s.storage pendingRevert = some (pendingRevert', s') := by
  unfold applyPendingRevert
  split
  · cases pendingRevert with
    | none => exact ⟨_, _, rfl⟩
    | some pendingRevert =>
      obtain ⟨s', hdelete, -⟩ := deleteStorage_spec (s := s) (revertedKeys request pendingRevert)
      exact ⟨none, s'.storage, by simp [hdelete]⟩
  · exact ⟨_, _, rfl⟩

end rewrite

end Mozkey.Rewriter
