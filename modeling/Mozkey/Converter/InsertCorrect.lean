import Mathlib
import Mozkey.Converter.InsertCandidates
import Mozkey.Converter.ViterbiCorrect

/-! `InsertCandidatesForConversion` refines the conversion segments: every old segment is replaced by
new ones that spell its key, a segment with a fixed boundary by a single one. -/

namespace Mozkey.Converter

open Lib

structure Split (old : Segment) (new : List Segment) : Prop where
  key : Segments.joinedKey new = old.key
  fixed : old.segmentType = .fixedBoundary → ∃ segment, new = [segment]
  filled : ∀ segment ∈ new, segment.candidates ≠ []
  type : ∀ segment ∈ new,
    segment.segmentType = old.segmentType ∨ segment.segmentType = .fixedValue

namespace Segments

@[simp] theorem joinedKey_append (xs ys : List Segment) :
    joinedKey (xs ++ ys) = joinedKey xs ++ joinedKey ys := List.flatMap_append

@[simp] theorem joinedKey_cons (segment : Segment) (rest : List Segment) :
    joinedKey (segment :: rest) = segment.key ++ joinedKey rest := List.flatMap_cons

theorem length_le_joinedKey {segments : List Segment} (h : ∀ s ∈ segments, s.key ≠ []) :
    segments.length ≤ (joinedKey segments).length := by
  induction segments with
  | nil => exact Nat.zero_le _
  | cons s rest ih =>
    have := List.length_pos_iff.mpr (h s List.mem_cons_self)
    have := ih fun s hs => h s (List.mem_cons_of_mem _ hs)
    rw [length_joinedKey_cons, List.length_cons]
    omega

@[simp] theorem joinedKey_singleton (segment : Segment) : joinedKey [segment] = segment.key := by
  simp [joinedKey]

theorem joinedKey_flatten {conv : List Segment} {groups : List (List Segment)}
    (h : List.Forall₂ Split conv groups) : joinedKey groups.flatten = joinedKey conv := by
  induction h with
  | nil => rfl
  | @cons old new conv groups hsplit _ ih =>
    rw [List.flatten_cons, joinedKey_append, ih, hsplit.key, joinedKey_cons]

theorem boundary_of_split {conv : List Segment} {groups : List (List Segment)}
    (h : List.Forall₂ Split conv groups) (i : Nat) :
    ∃ j ≤ groups.flatten.length,
      joinedKey (groups.flatten.take j) = joinedKey (conv.take i) := by
  refine ⟨(groups.take i).flatten.length, ?_, ?_⟩
  · rw [← List.take_append_drop i groups, List.flatten_append, List.length_append,
      List.take_append_drop]
    omega
  · have hflat : groups.flatten = (groups.take i).flatten ++ (groups.drop i).flatten := by
      rw [← List.flatten_append, List.take_append_drop]
    rw [hflat, List.take_left, joinedKey_flatten (List.forall₂_take i h)]

end Segments

section group

variable {pre suf : List Segment} {segment : Segment} {pos : Nat}

theorem segmentEnd_append (left : Nat) (hlo : left + (Segments.joinedKey pre).length ≤ pos)
    (hhi : pos < left + (Segments.joinedKey pre).length + segment.key.length) :
    segmentEnd left (pre ++ segment :: suf) pos =
      left + (Segments.joinedKey pre).length + segment.key.length := by
  induction pre generalizing left with
  | nil =>
    rw [Segments.length_joinedKey_nil] at hlo hhi
    rw [List.nil_append, segmentEnd, if_pos (by omega), Segments.length_joinedKey_nil]
    rfl
  | cons first pre ih =>
    rw [Segments.length_joinedKey_cons] at hlo hhi
    rw [List.cons_append, segmentEnd, if_neg (by omega), ih _ (by omega) (by omega),
      Segments.length_joinedKey_cons]
    omega

theorem segmentEnd_le_of_lt (left : Nat) (hlo : left ≤ pos)
    (h : pos < left + (Segments.joinedKey pre).length) :
    segmentEnd left (pre ++ suf) pos ≤ left + (Segments.joinedKey pre).length := by
  induction pre generalizing left with
  | nil =>
    rw [Segments.length_joinedKey_nil] at h
    omega
  | cons first pre ih =>
    rw [Segments.length_joinedKey_cons] at h ⊢
    rw [List.cons_append, segmentEnd]
    split
    · omega
    · have := ih (left + first.key.length) (by omega) (by omega)
      omega

theorem makeGroup_getD (hlo : (Segments.joinedKey pre).length ≤ pos)
    (hhi : pos < (Segments.joinedKey pre).length + segment.key.length) :
    (makeGroup ⟨pre ++ segment :: suf⟩).getD pos 0 = pre.length % 2 ^ 16 := by
  have hlen : ∀ (xs : List Segment) (k : Nat), ((xs.zipIdx k).flatMap fun x =>
      List.replicate x.1.key.length (x.2 % 2 ^ 16)).length = (Segments.joinedKey xs).length := by
    intro xs
    induction xs with
    | nil => simp
    | cons x xs ih =>
      intro k
      rw [List.zipIdx_cons, List.flatMap_cons, List.length_append, ih,
        Segments.length_joinedKey_cons, List.length_replicate]
  rw [makeGroup, List.zipIdx_append, List.flatMap_append, List.append_assoc,
    List.getD_append_right _ _ _ _ (by rw [hlen]; exact hlo), hlen, List.zipIdx_cons,
    List.flatMap_cons, List.append_assoc,
    List.getD_append _ _ _ _ (by rw [List.length_replicate]; omega)]
  simp [show pos - (Segments.joinedKey pre).length < segment.key.length by omega]

end group

namespace ImmutableConverter

section

variable {σ : Type} (converter : ImmutableConverter σ)

theorem insertDummyCandidates_eq (expandSize : Nat) (segment : Segment) :
    ∃ candidates, candidates ≠ [] ∧
      insertDummyCandidates converter expandSize segment = { segment with candidates } := by
  have h₁ : ∀ s, ∃ candidates,
      insertKatakanaContent converter expandSize s = { s with candidates } := by
    intro s
    unfold insertKatakanaContent
    split
    · split
      · exact ⟨_, rfl⟩
      · exact ⟨s.candidates, rfl⟩
    · exact ⟨s.candidates, rfl⟩
  have h₂ : ∀ s, ∃ candidates, candidates ≠ [] ∧
      insertHiragana converter expandSize s = { s with candidates } := by
    intro s
    unfold insertHiragana
    split
    · exact ⟨_, by simp, rfl⟩
    · next h => exact ⟨s.candidates, fun hnil => h (Or.inl hnil), rfl⟩
  have h₃ : ∀ s : Segment, s.candidates ≠ [] → ∃ candidates, candidates ≠ [] ∧
      insertKatakana converter expandSize s = { s with candidates } := by
    intro s hs
    unfold insertKatakana
    dsimp only
    split
    · split
      · exact ⟨_, by simp, rfl⟩
      · exact ⟨s.candidates, hs, rfl⟩
    · exact ⟨s.candidates, hs, rfl⟩
  obtain ⟨_, e₁⟩ := h₁ segment
  obtain ⟨_, n₂, e₂⟩ := h₂ (insertKatakanaContent converter expandSize segment)
  obtain ⟨_, n₃, e₃⟩ := h₃ (insertHiragana converter expandSize
    (insertKatakanaContent converter expandSize segment)) (by rw [e₂]; exact n₂)
  refine ⟨_, n₃, ?_⟩
  rw [insertDummyCandidates, e₃, e₂, e₁]

theorem setCandidates_eq (modules : NBestModules σ) (lattice : Lattice) (fuel expandSize : Nat)
    (g : NBestGenerator σ) (segment : Segment) :
    ∃ candidates, (NBestGenerator.setCandidates modules lattice fuel expandSize g segment).1 =
      { segment with candidates } := by
  induction fuel generalizing g segment with
  | zero => exact ⟨segment.candidates, rfl⟩
  | succ fuel ih =>
    unfold NBestGenerator.setCandidates
    split
    · split
      · next candidate g' _ =>
        obtain ⟨_, h⟩ := ih g' { segment with candidates := segment.candidates ++ [candidate] }
        exact ⟨_, h⟩
      · exact ⟨segment.candidates, rfl⟩
    · exact ⟨segment.candidates, rfl⟩

variable (request : ConversionRequest) (lattice : Lattice) (group : List Nat)

/-- What a new segment is given: the key between the positions, the type of the old segment unless
the node is a constrained one, and a candidate. -/
theorem insertSegment_eq (expandSize beginPos node next : Nat) (st : InsertState σ) :
    ∃ segment : Segment,
      segment.key = (lattice.key.drop beginPos).take ((lattice.node node).endPos - beginPos) ∧
      (segment.segmentType =
          (st.segments.segment (group.getD (lattice.node node).beginPos 0)).segmentType ∨
        segment.segmentType = .fixedValue) ∧
      segment.candidates ≠ [] ∧
      (insertSegment converter lattice group .multiSegments expandSize beginPos node next
          st).segments = ⟨st.segments.segments ++ [segment]⟩ ∧
      (insertSegment converter lattice group .multiSegments expandSize beginPos node next
          st).beginPos = none := by
  unfold insertSegment getInsertTargetSegment
  rw [if_neg (by simp)]
  simp only [true_or, if_true]
  set target : Segment :=
    { key := (lattice.key.drop beginPos).take ((lattice.node node).endPos - beginPos)
      segmentType :=
        (st.segments.segment (group.getD (lattice.node node).beginPos 0)).segmentType } with htarget
  obtain ⟨_, hset⟩ := setCandidates_eq converter.modules lattice expandSize expandSize
    (NBestGenerator.reset converter.modules lattice st.generator st.prev next
      (nBestOptions .multiSegments target)) target
  obtain ⟨candidates, hne, hdummy⟩ := insertDummyCandidates_eq converter expandSize
    { target with candidates := _ }
  rw [hset, hdummy]
  split
  · exact ⟨{ target with segmentType := .fixedValue, candidates }, rfl, Or.inr rfl, hne, rfl, trivial⟩
  · exact ⟨{ target with candidates }, rfl, Or.inl rfl, hne, rfl, trivial⟩

end

section

variable {σ : Type} {converter : ImmutableConverter σ} {request : ConversionRequest} {m : Lattice}
  {group : List Nat} {segments : Segments} {node next : Nat} {isSingleSegment : Bool}

theorem isSegmentEndNode_of_eos (h : (m.node next).nodeType = .eosNode) :
    isSegmentEndNode converter request m group segments node next isSingleSegment = true := by
  simp [isSegmentEndNode, h]

theorem isSegmentEndNode_of_group_ne (hrequest : request.requestType ≠ .reverseConversion)
    (h : group.getD (m.node node).beginPos 0 ≠ group.getD (m.node next).beginPos 0) :
    isSegmentEndNode converter request m group segments node next isSingleSegment = true := by
  simp only [isSegmentEndNode, hrequest, false_and, if_false]
  split
  · rfl
  · rw [if_neg (fun hand => h hand.1)]

theorem isSegmentEndNode_of_fixed (hrequest : request.requestType ≠ .reverseConversion)
    (heos : (m.node next).nodeType ≠ .eosNode)
    (h : group.getD (m.node node).beginPos 0 = group.getD (m.node next).beginPos 0)
    (hfixed : (segments.segment (group.getD (m.node node).beginPos 0)).segmentType =
      .fixedBoundary) :
    isSegmentEndNode converter request m group segments node next isSingleSegment = false := by
  simp only [isSegmentEndNode, hrequest, false_and, if_false]
  rw [if_neg heos, if_pos ⟨h, hfixed⟩]

end

/-- `w` comes after `u` on the best path of a lattice for `segments`. -/
structure Follows (m : Lattice) (segments : Segments) (u w : Nat) : Prop where
  next : (m.node u).next = some w
  pos : (m.node u).endPos = (m.node w).beginPos
  end_le : (m.node w).endPos ≤ segmentEnd 0 segments.segments (m.node w).beginPos
  begin_lt : (m.node w).next ≠ none →
    (m.node w).beginPos < (m.node w).endPos ∧ (m.node w).endPos ≤ m.key.length
  eos : (m.node w).nodeType = .eosNode ↔ (m.node w).beginPos = m.key.length
  his : (m.node w).nodeType = .hisNode ↔
    (m.node w).beginPos < (Segments.joinedKey segments.historySegments).length

/-- Where the loop is when it comes to a node at `pos`, its next segment beginning at `start`: the old
segments `done` are replaced by `groups`, and `part` holds what the first segment of `todo`, which
begins at `left`, has become so far. -/
structure Progress (segments : Segments) (key : Bytes) (left start pos : Nat)
    (done todo : List Segment) (groups : List (List Segment)) (part : List Segment) : Prop where
  conv : segments.conversionSegments = done ++ todo
  left_eq : left = (Segments.joinedKey (segments.historySegments ++ done)).length
  split : List.Forall₂ Split done groups
  filled : ∀ s ∈ part, s.candidates ≠ []
  left_le : left ≤ start
  start_le : start ≤ pos
  spelled : Segments.joinedKey part = (key.drop left).take (start - left)
  inside : ∀ old rest, todo = old :: rest → pos < left + old.key.length ∧
    (old.segmentType = .fixedBoundary → part = [] ∧ start = left) ∧
    ∀ s ∈ part, s.segmentType = old.segmentType ∨ s.segmentType = .fixedValue
  finished : todo = [] → part = [] ∧ pos = key.length

namespace Progress

variable {segments : Segments} {key : Bytes} {left start pos : Nat} {done todo : List Segment}
  {groups : List (List Segment)} {part : List Segment}

theorem todo_eq_nil (hkey : key = Segments.joinedKey segments.segments)
    (h : Progress segments key left start pos done todo groups part) (hpos : pos = key.length) :
    todo = [] := by
  cases todo with
  | nil => rfl
  | cons old rest =>
    have hlen := congrArg List.length hkey
    rw [← segments.historySegments_append_conversionSegments, h.conv, ← List.append_assoc,
      Segments.joinedKey_append, List.length_append, ← h.left_eq,
      Segments.length_joinedKey_cons] at hlen
    have := (h.inside old rest rfl).1
    omega

variable {old : Segment} {rest : List Segment}

theorem extend (h : Progress segments key left start pos done (old :: rest) groups part) {e : Nat}
    (hle : pos ≤ e) (hlt : e < left + old.key.length) :
    Progress segments key left start e done (old :: rest) groups part where
  conv := h.conv
  left_eq := h.left_eq
  split := h.split
  filled := h.filled
  left_le := h.left_le
  start_le := h.start_le.trans hle
  spelled := h.spelled
  inside := by
    rintro _ _ ⟨⟩
    exact ⟨hlt, (h.inside old rest rfl).2⟩
  finished h := by cases h

variable {segment : Segment} {e : Nat} (hkey : segment.key = (key.drop start).take (e - start))
  (hcandidates : segment.candidates ≠ [])
  (htype : segment.segmentType = old.segmentType ∨ segment.segmentType = .fixedValue)
include hkey hcandidates htype

theorem part_append (h : Progress segments key left start pos done (old :: rest) groups part)
    (hle : start ≤ e) :
    (∀ s ∈ part ++ [segment], s.candidates ≠ [] ∧
      (s.segmentType = old.segmentType ∨ s.segmentType = .fixedValue)) ∧
    Segments.joinedKey (part ++ [segment]) = (key.drop left).take (e - left) := by
  refine ⟨fun s hs => ?_, ?_⟩
  · rcases List.mem_append.mp hs with hs | hs
    · exact ⟨h.filled s hs, (h.inside old rest rfl).2.2 s hs⟩
    · rw [List.mem_singleton.mp hs]
      exact ⟨hcandidates, htype⟩
  · have := h.left_le
    rw [Segments.joinedKey_append, Segments.joinedKey_singleton, h.spelled, hkey,
      show e - left = (start - left) + (e - start) by omega, List.take_add, List.drop_drop,
      show left + (start - left) = start by omega]

theorem append (h : Progress segments key left start pos done (old :: rest) groups part)
    (hle : start ≤ e) (hlt : e < left + old.key.length)
    (hfree : old.segmentType ≠ .fixedBoundary) :
    Progress segments key left e e done (old :: rest) groups (part ++ [segment]) := by
  obtain ⟨hpart, hspelled⟩ := h.part_append hkey hcandidates htype hle
  exact
    { conv := h.conv
      left_eq := h.left_eq
      split := h.split
      filled := fun s hs => (hpart s hs).1
      left_le := h.left_le.trans hle
      start_le := le_refl _
      spelled := hspelled
      inside := by
        rintro _ _ ⟨⟩
        exact ⟨hlt, fun hfixed => absurd hfixed hfree, fun s hs => (hpart s hs).2⟩
      finished := fun h => by cases h }

theorem complete (h : Progress segments key left start pos done (old :: rest) groups part)
    (hall : key = Segments.joinedKey segments.segments)
    (hrest : ∀ s ∈ rest, s.key ≠ []) (hle : start ≤ e) (heq : e = left + old.key.length) :
    Progress segments key e e e (done ++ [old]) rest (groups ++ [part ++ [segment]]) [] := by
  obtain ⟨hpart, hspelled⟩ := h.part_append hkey hcandidates htype hle
  have hkey' : key = Segments.joinedKey (segments.historySegments ++ done) ++
      (old.key ++ Segments.joinedKey rest) := by
    rw [hall, ← segments.historySegments_append_conversionSegments, h.conv, ← List.append_assoc,
      Segments.joinedKey_append, Segments.joinedKey_cons]
  have hold : (key.drop left).take (e - left) = old.key := by
    rw [hkey', h.left_eq, List.drop_left, heq, h.left_eq, Nat.add_sub_cancel_left, List.take_left]
  refine
    { conv := by rw [h.conv, List.append_assoc, List.singleton_append]
      left_eq := ?_
      split := ?_
      filled := by simp
      left_le := le_refl _
      start_le := le_refl _
      spelled := by simp [Segments.joinedKey]
      inside := ?_
      finished := ?_ }
  · rw [← List.append_assoc, Segments.joinedKey_append, List.length_append, ← h.left_eq, heq,
      Segments.joinedKey_singleton]
  · refine List.rel_append h.split (List.Forall₂.cons ?_ List.Forall₂.nil)
    exact
      { key := hspelled.trans hold
        fixed := fun hfixed => ⟨segment, by rw [((h.inside old rest rfl).2.1 hfixed).1]; rfl⟩
        filled := fun s hs => (hpart s hs).1
        type := fun s hs => (hpart s hs).2 }
  · rintro next rest' rfl
    have := List.length_pos_iff.mpr (hrest next (by simp))
    exact ⟨by omega, fun _ => ⟨rfl, rfl⟩, by simp⟩
  · rintro rfl
    refine ⟨rfl, ?_⟩
    have hlen := congrArg List.length hkey'
    rw [List.length_append, List.length_append, ← h.left_eq, Segments.length_joinedKey_nil] at hlen
    omega

end Progress

section

variable {σ : Type} {converter : ImmutableConverter σ} {request : ConversionRequest} {m : Lattice}
  {segments : Segments}

/-- What the loop over the path needs of the segments and of the request: in a reverse conversion
there is one free segment. -/
structure Replaceable (request : ConversionRequest) (m : Lattice) (segments : Segments) : Prop where
  key_eq : m.key = Segments.joinedKey segments.segments
  size_lt : segments.segments.length < 2 ^ 16
  conversion_key : ∀ s ∈ segments.conversionSegments, s.key ≠ []
  request : request.requestType ≠ .reverseConversion ∨
    ∃ s, segments.conversionSegments = [s] ∧ s.segmentType = .free

theorem Progress.segment_group {left start pos : Nat} {done rest : List Segment} {old : Segment}
    {groups : List (List Segment)} {part : List Segment} (hr : Replaceable request m segments)
    (h : Progress segments m.key left start pos done (old :: rest) groups part) {p : Nat}
    (hlo : left ≤ p) (hhi : p < left + old.key.length) :
    (makeGroup segments).getD p 0 = (segments.historySegments ++ done).length ∧
    segmentEnd 0 segments.segments p = left + old.key.length ∧
    ∀ news, Segments.segment ⟨segments.segments ++ news⟩ ((makeGroup segments).getD p 0) = old := by
  have hsegments : segments.segments = (segments.historySegments ++ done) ++ old :: rest := by
    rw [List.append_assoc, ← h.conv, segments.historySegments_append_conversionSegments]
  have hlt : (segments.historySegments ++ done).length < 2 ^ 16 := by
    have := hr.size_lt
    rw [hsegments, List.length_append] at this
    omega
  have hgroup : (makeGroup segments).getD p 0 = (segments.historySegments ++ done).length := by
    have := @makeGroup_getD _ rest
      _ p (by rw [← h.left_eq]; exact hlo) (by rw [← h.left_eq]; exact hhi)
    rw [← hsegments, Nat.mod_eq_of_lt hlt] at this
    exact this
  refine ⟨hgroup, ?_, fun news => ?_⟩
  · rw [hsegments, segmentEnd_append 0 (by rw [← h.left_eq]; omega) (by rw [← h.left_eq]; omega),
      ← h.left_eq, Nat.zero_add]
  · rw [hgroup, Segments.segment]
    dsimp only
    rw [hsegments, List.append_assoc, List.getD_append_right _ _ _ _ (le_refl _), Nat.sub_self]
    rfl

theorem insertLoop_progress {left start : Nat} {done rest : List Segment} {old : Segment}
    {groups : List (List Segment)} {part : List Segment} (hr : Replaceable request m segments)
    {u v w : Nat} (hv : Follows m segments u v) (hw : Follows m segments v w)
    {st : InsertState σ}
    (hstart : start = st.beginPos.getD (m.node v).beginPos)
    (hst : st.segments.segments = segments.segments ++ (groups.flatten ++ part))
    (h : Progress segments m.key left start (m.node v).beginPos done (old :: rest) groups part)
    (expandSize fuel : Nat) :
    ∃ st' left' start' done' todo' groups' part',
      insertLoop converter request m (makeGroup segments) .multiSegments expandSize (fuel + 1) v st =
        insertLoop converter request m (makeGroup segments) .multiSegments expandSize fuel w st' ∧
      start' = st'.beginPos.getD (m.node w).beginPos ∧
      st'.segments.segments = segments.segments ++ (groups'.flatten ++ part') ∧
      Progress segments m.key left' start' (m.node w).beginPos done' todo' groups' part' := by
  have hlt := (h.inside old rest rfl).1
  have hleft := h.left_le
  have hpos := h.start_le
  obtain ⟨hgroup, hend, hsegment⟩ := h.segment_group hr (by omega) hlt
  have hle := hv.end_le
  rw [hend, hw.pos] at hle
  have hvw := (hv.begin_lt (by rw [hw.next]; exact Option.some_ne_none w)).1
  rw [hw.pos] at hvw
  have hnews : ∀ news, st.segments.segments = segments.segments ++ news →
      st.segments.segment ((makeGroup segments).getD (m.node v).beginPos 0) = old := by
    intro news hnews
    rw [← hsegment news, ← hnews]
  have hold := hnews _ hst
  obtain ⟨segment, hkey, htype, hne, hsegments, hnone⟩ := insertSegment_eq converter m
    (makeGroup segments) expandSize start v w st
  rw [hw.pos] at hkey
  rw [hold] at htype
  have hflat : st.segments.segments ++ [segment] =
      segments.segments ++ (groups.flatten ++ (part ++ [segment])) := by
    rw [hst, List.append_assoc, List.append_assoc]
  rw [insertLoop, hw.next]
  simp only [← hstart, reduceCtorEq, if_false]
  rcases Nat.lt_or_eq_of_le hle with hle | hle
  · -- the node ends inside the old segment
    by_cases hfixed : old.segmentType = .fixedBoundary
    · have hrequest : request.requestType ≠ .reverseConversion := by
        refine hr.request.resolve_right ?_
        rintro ⟨s, hs, hfree⟩
        have : old ∈ segments.conversionSegments := by
          rw [h.conv]
          simp
        rw [hs, List.mem_singleton] at this
        rw [this, hfree] at hfixed
        cases hfixed
      have hnext := (h.segment_group hr (p := (m.node w).beginPos) (by omega) hle).1
      rw [isSegmentEndNode_of_fixed hrequest ?_ (hgroup.trans hnext.symm)
        ((congrArg Segment.segmentType hold).trans hfixed)]
      · exact ⟨{ st with beginPos := some start }, left, start, done, old :: rest, groups, part, rfl,
          rfl, hst, h.extend hvw.le hle⟩
      · intro heos
        have := hw.eos.mp heos
        have hlen := congrArg List.length hr.key_eq
        rw [← segments.historySegments_append_conversionSegments, h.conv, ← List.append_assoc,
          Segments.joinedKey_append, List.length_append, ← h.left_eq,
          Segments.length_joinedKey_cons] at hlen
        omega
    · split
      · exact ⟨_, left, _, done, old :: rest, groups, part ++ [segment], rfl, by rw [hnone]; rfl,
          by rw [hsegments]; exact hflat, h.append hkey hne htype (by omega) hle hfixed⟩
      · exact ⟨{ st with beginPos := some start }, left, start, done, old :: rest, groups, part, rfl,
          rfl, hst, h.extend hvw.le hle⟩
  · -- the node ends with the old segment
    have hcomplete := h.complete (e := (m.node w).beginPos) hkey hne htype hr.key_eq (fun s hs =>
      hr.conversion_key s (by rw [h.conv]; simp [hs])) (by omega) hle
    have hisEnd : isSegmentEndNode converter request m (makeGroup segments) st.segments v w
        false = true := by
      cases hrest : rest with
      | nil => exact isSegmentEndNode_of_eos (hw.eos.mpr (hcomplete.finished hrest).2)
      | cons next rest' =>
        rw [hrest] at hcomplete
        have hrequest : request.requestType ≠ .reverseConversion := by
          refine hr.request.resolve_right ?_
          rintro ⟨s, hs, _⟩
          have := congrArg List.length (h.conv.symm.trans hs)
          simp only [hrest, List.length_append, List.length_cons, List.length_nil] at this
          omega
        have hnext := (hcomplete.segment_group hr (le_refl _)
          (hcomplete.inside next rest' rfl).1).1
        refine isSegmentEndNode_of_group_ne hrequest ?_
        rw [hgroup, hnext]
        simp
    simp only [or_self, decide_false, hisEnd, if_true]
    exact ⟨_, _, _, done ++ [old], rest, groups ++ [part ++ [segment]], [], rfl, by rw [hnone]; rfl,
      by rw [hsegments, List.append_nil, List.flatten_append]; simpa using hflat, hcomplete⟩

variable {e : Nat}

theorem insertLoop_path (hr : Replaceable request m segments) (hnext : (m.node e).next = none)
    (hpos : (m.node e).beginPos = m.key.length) (expandSize : Nat) (p : List Nat) {u v : Nat}
    {tail : List Nat} (htail : p ++ [e] = v :: tail)
    (hp : (u :: (p ++ [e])).IsChain (Follows m segments)) (fuel : Nat) (hfuel : p.length ≤ fuel)
    {left start : Nat} {done todo : List Segment} {groups : List (List Segment)}
    {part : List Segment} {st : InsertState σ}
    (hstart : start = st.beginPos.getD (m.node v).beginPos)
    (hst : st.segments.segments = segments.segments ++ (groups.flatten ++ part))
    (h : Progress segments m.key left start (m.node v).beginPos done todo groups part) :
    ∃ groups, List.Forall₂ Split segments.conversionSegments groups ∧
      (insertLoop converter request m (makeGroup segments) .multiSegments expandSize fuel v
        st).segments.segments = segments.segments ++ groups.flatten := by
  induction p generalizing u v tail fuel left start done todo groups part st with
  | nil =>
    obtain ⟨rfl, rfl⟩ : e = v ∧ tail = [] := by simpa [eq_comm] using htail
    have htodo := h.todo_eq_nil hr.key_eq hpos
    have hloop : insertLoop converter request m (makeGroup segments) .multiSegments expandSize fuel
        e st = st := by
      cases fuel with
      | zero => rfl
      | succ fuel => simp [insertLoop, hnext]
    refine ⟨groups, ?_, ?_⟩
    · rw [h.conv, htodo, List.append_nil]
      exact h.split
    · rw [hloop, hst, (h.finished htodo).1, List.append_nil]
  | cons x p ih =>
    obtain ⟨rfl, rfl⟩ : x = v ∧ p ++ [e] = tail := by simpa using htail
    obtain ⟨fuel, rfl⟩ : ∃ k, fuel = k + 1 := ⟨fuel - 1, by simp at hfuel; omega⟩
    obtain ⟨w, tail', hw⟩ := List.exists_cons_of_ne_nil (List.append_ne_nil_of_right_ne_nil p
      (List.cons_ne_nil e []))
    rw [List.cons_append, hw] at hp
    have huv := (List.isChain_cons_cons.mp hp).1
    have hvw := (List.isChain_cons_cons.mp (List.isChain_cons_cons.mp hp).2).1
    cases todo with
    | nil =>
      have := huv.begin_lt (by rw [hvw.next]; exact Option.some_ne_none w)
      have := (h.finished rfl).2
      omega
    | cons old rest =>
      obtain ⟨st', left', start', done', todo', groups', part', heq, hstart', hst', h'⟩ :=
        insertLoop_progress hr huv hvw hstart hst h expandSize fuel
      rw [heq]
      refine ih (u := x) hw ?_ fuel (by simp at hfuel; omega) hstart' hst' h'
      rw [hw]
      exact (List.isChain_cons_cons.mp hp).2

theorem skipHistory_path (hkey : m.key = Segments.joinedKey segments.segments)
    (hnext : (m.node e).next = none) (hpos : (m.node e).beginPos = m.key.length) (q : List Nat)
    {u : Nat} (hq : (u :: (q ++ [e])).IsChain (Follows m segments)) (fuel : Nat)
    (hfuel : q.length ≤ fuel)
    (hu : (m.node u).endPos ≤ (Segments.joinedKey segments.historySegments).length) :
    ∃ p, (skipHistory m fuel u :: (p ++ [e])).IsChain (Follows m segments) ∧
      p.length ≤ q.length ∧ ∀ v tail, p ++ [e] = v :: tail →
        (m.node v).beginPos = (Segments.joinedKey segments.historySegments).length := by
  have hlen := congrArg List.length hkey
  rw [← segments.historySegments_append_conversionSegments, Segments.joinedKey_append,
    List.length_append] at hlen
  induction q generalizing u fuel with
  | nil =>
    have hue := (List.isChain_cons_cons.mp hq).1
    have hskip : skipHistory m fuel u = u := by
      cases fuel with
      | zero => rfl
      | succ fuel => simp [skipHistory, hue.next, hnext]
    refine ⟨[], by rwa [hskip], le_refl _, fun v tail htail => ?_⟩
    obtain ⟨rfl, -⟩ : e = v ∧ tail = [] := by simpa [eq_comm] using htail
    have := hue.pos
    omega
  | cons v q ih =>
    obtain ⟨fuel, rfl⟩ : ∃ k, fuel = k + 1 := ⟨fuel - 1, by simp at hfuel; omega⟩
    have huv := (List.isChain_cons_cons.mp hq).1
    by_cases hhis : (m.node v).next ≠ none ∧ (m.node v).nodeType = .hisNode
    · have hlt := huv.his.mp hhis.2
      have hle := huv.end_le
      rw [← segments.historySegments_append_conversionSegments] at hle
      have hend := @segmentEnd_le_of_lt _ segments.conversionSegments _ 0 (Nat.zero_le _)
        (by rwa [Nat.zero_add])
      obtain ⟨p, hp, hlength, hbegin⟩ := ih (List.isChain_cons_cons.mp hq).2 fuel
        (by simp at hfuel; omega) (by omega)
      refine ⟨p, ?_, by simp; omega, hbegin⟩
      simpa [skipHistory, huv.next, hhis] using hp
    · refine ⟨v :: q, ?_, le_refl _, fun x tail htail => ?_⟩
      · simpa [skipHistory, huv.next, hhis] using hq
      · obtain ⟨rfl, -⟩ : v = x ∧ q ++ [e] = tail := by simpa using htail
        obtain ⟨w, tail', hw⟩ := List.exists_cons_of_ne_nil (List.append_ne_nil_of_right_ne_nil q
          (List.cons_ne_nil e []))
        rw [List.cons_append, hw] at hq
        have hvw := (List.isChain_cons_cons.mp (List.isChain_cons_cons.mp hq).2).1
        have hnot : ¬ (m.node v).nodeType = .hisNode := fun h =>
          hhis ⟨by rw [hvw.next]; exact Option.some_ne_none w, h⟩
        have := huv.pos
        have := mt huv.his.mpr hnot
        omega

theorem insertCandidates_path (hr : Replaceable request m segments)
    (hnext : (m.node e).next = none) (hpos : (m.node e).beginPos = m.key.length) {q : List Nat}
    (hq : (m.bosNode :: (q ++ [e])).IsChain (Follows m segments)) (hlength : q.length ≤ m.size)
    (hbos : (m.node m.bosNode).endPos = 0) (filter : σ) (maxCandidatesSize : Nat) :
    ∃ groups, List.Forall₂ Split segments.conversionSegments groups ∧
      (insertCandidates converter request m (makeGroup segments) segments filter maxCandidatesSize
        .multiSegments).segments = segments.segments ++ groups.flatten := by
  obtain ⟨p, hp, hle, hbegin⟩ := skipHistory_path hr.key_eq hnext hpos q hq m.size hlength (by omega)
  obtain ⟨v, tail, hv⟩ := List.exists_cons_of_ne_nil (List.append_ne_nil_of_right_ne_nil p
    (List.cons_ne_nil e []))
  have hfollows := hp
  rw [hv] at hfollows
  rw [insertCandidates]
  simp only [(List.isChain_cons_cons.mp hfollows).1.next]
  have hstart : Progress segments m.key (Segments.joinedKey segments.historySegments).length
      (Segments.joinedKey segments.historySegments).length
      (Segments.joinedKey segments.historySegments).length [] segments.conversionSegments [] [] := by
    refine
    { conv := rfl
      left_eq := by rw [List.append_nil]
      split := List.Forall₂.nil
      filled := by simp
      left_le := le_refl _
      start_le := le_refl _
      spelled := by simp [Segments.joinedKey]
      inside := fun old rest htodo => ?_
      finished := fun htodo => ⟨rfl, ?_⟩ }
    · have := List.length_pos_iff.mpr (hr.conversion_key old (by simp [htodo]))
      exact ⟨by omega, fun _ => ⟨rfl, rfl⟩, by simp⟩
    · rw [hr.key_eq, ← segments.historySegments_append_conversionSegments, htodo, List.append_nil]
  have hbegin := hbegin v tail hv
  have hstart : Progress segments m.key (Segments.joinedKey segments.historySegments).length
      (m.node v).beginPos (m.node v).beginPos [] segments.conversionSegments [] [] := by
    rw [hbegin]
    exact hstart
  exact insertLoop_path hr hnext hpos _ p hv hp (m.size + 1) (by omega) rfl
    (List.append_nil _).symm hstart

end

end ImmutableConverter

/-- Behind BOS, the history nodes are those that begin before `historyEnd`, and only EOS has its
type. -/
def Lattice.Typed (l : Lattice) (historyEnd : Nat) : Prop :=
  ∀ v, v < l.size → v ≠ l.bosNode →
    ((l.node v).nodeType = .eosNode ↔ (l.node v).beginPos = l.key.length) ∧
    ((l.node v).nodeType = .hisNode ↔ (l.node v).beginPos < historyEnd)

theorem Lattice.typed_fill {key : Bytes} {bosId historyEnd : Nat} {nodes : List (Nat × Node)}
    (hl : (Lattice.fill key bosId nodes).Fresh) (hne : key ≠ []) (hlen : key.length < 2 ^ 16)
    (hhistory : historyEnd ≤ key.length) (hpos : ∀ p ∈ nodes, p.1 < key.length)
    (heos : ∀ p ∈ nodes, p.2.nodeType ≠ .eosNode)
    (hhis : ∀ p ∈ nodes, p.2.nodeType = .hisNode ↔ p.1 < historyEnd) :
    (Lattice.fill key bosId nodes).Typed historyEnd := by
  intro v hv hvb
  have hnode := (fill_forall (P := fun n =>
    n.endPos = 0 ∨ ((n.nodeType = .eosNode ↔ n.beginPos = key.length) ∧
      (n.nodeType = .hisNode ↔ n.beginPos < historyEnd))) (Or.inl rfl) (Or.inr ?_) ?_).2 v hv
  · rw [fill_key]
    refine hnode.resolve_left fun hend => ?_
    by_cases hve : v = (fill key bosId nodes).eosNode
    · have := hl.eos_pos.2
      rw [fill_key, ← hve, hend] at this
      exact hne (List.length_eq_zero_iff.mp this.symm)
    · have := (hl.begin_lt_end v hv hvb hve).1
      omega
  · rw [initEOSNode, toPos_of_lt hlen]
    simp [hhistory]
  · intro p hp
    have := hpos p hp
    refine Or.inr ?_
    rw [placed, toPos_of_lt (by omega)]
    refine ⟨iff_of_false (heos p hp) (by dsimp only; omega), hhis p hp⟩

theorem Searched.follows {connector : Connector} {segments : Segments} {l m : Lattice}
    (hl : Solvable segments.segments l) (hs : Searched connector segments.segments l true m)
    (htype : l.Typed (Segments.joinedKey segments.historySegments).length) :
    ∃ q, (m.bosNode :: (q ++ [m.eosNode])).IsChain (ImmutableConverter.Follows m segments) ∧
      q.length ≤ m.size := by
  have hlinked := hs.linked rfl
  have hr := @ranked_admissible connector segments.segments _ hl.toFresh
  have hlength := hs.traced.length_back_le hr (fun v hv => by
    rcases hv with rfl | hv
    · exact List.mem_range.mpr hl.bos_lt
    · obtain ⟨u, hu⟩ := Option.isSome_iff_exists.mp hv
      exact List.mem_range.mpr (hs.traced.step v u hu).1.2.1.1) (l.rank l.eosNode) l.eosNode
    (List.mem_range.mpr hl.eos_lt)
  rw [List.length_range] at hlength
  have hchain : (m.labels.back (l.rank l.eosNode) l.eosNode).IsChain
      (ImmutableConverter.Follows m segments) := by
    have hboth := List.isChain_iff_getElem.mp hlinked.prev
    refine List.isChain_iff_getElem.mpr fun i hi => ?_
    have hprev := List.isChain_iff_getElem.mp hlinked.prev i hi
    have hnext := List.isChain_iff_getElem.mp hlinked.next i hi
    generalize (m.labels.back (l.rank l.eosNode) l.eosNode)[i] = u at hprev hnext
    generalize (m.labels.back (l.rank l.eosNode) l.eosNode)[i + 1] = w at hprev hnext
    obtain ⟨-, ⟨hw, hwb⟩, hpos, hend, -⟩ := (hs.traced.step w u hprev).1
    obtain ⟨heos, hhis⟩ := htype w hw hwb
    refine ⟨hnext, ?_, ?_, fun hne => ?_, ?_, ?_⟩
    · rw [hs.same.field u Node.endPos fun _ => rfl, hs.same.field w Node.beginPos fun _ => rfl, hpos]
    · rwa [hs.same.field w Node.endPos fun _ => rfl, hs.same.field w Node.beginPos fun _ => rfl]
    · rw [hs.same.field w Node.endPos fun _ => rfl, hs.same.field w Node.beginPos fun _ => rfl,
        hs.same.key]
      refine hl.begin_lt_end w hw hwb fun hwe => hne ?_
      rw [hwe, ← hs.same.eosNode, hlinked.next_eos]
    · rwa [hs.same.field w Node.nodeType fun _ => rfl,
        hs.same.field w Node.beginPos fun _ => rfl, hs.same.key]
    · rwa [hs.same.field w Node.nodeType fun _ => rfl, hs.same.field w Node.beginPos fun _ => rfl]
  obtain ⟨t, ht⟩ := List.head?_eq_some_iff.mp hlinked.head
  have hlast := hlinked.last
  rw [ht] at hchain hlast hlength
  rcases List.eq_nil_or_concat' t with rfl | ⟨q, x, rfl⟩
  · rw [List.getLast?_singleton, Option.some_inj, hs.same.bosNode, hs.same.eosNode] at hlast
    exact absurd hlast hl.bos_ne_eos
  · rw [List.getLast?_cons, List.getLast?_concat, Option.getD_some, Option.some_inj] at hlast
    refine ⟨q, hlast ▸ hchain, ?_⟩
    rw [List.length_cons, List.length_append] at hlength
    rw [hs.same.size]
    omega

namespace Segments

variable {segments : Segments}

theorem isHistory_of_mem {s : Segment} (h : s ∈ segments.historySegments) : isHistory s = true :=
  List.all_eq_true.mp List.all_takeWhile s h

theorem isHistory_head_conversionSegments {old : Segment} {rest : List Segment}
    (h : segments.conversionSegments = old :: rest) : isHistory old = false := by
  have happ := segments.historySegments_append_conversionSegments
  rw [← List.takeWhile_append_dropWhile (p := isHistory) (l := segments.segments),
    historySegments] at happ
  have hdrop := List.append_cancel_left happ
  have hhead := List.head?_dropWhile_not isHistory segments.segments
  rw [← hdrop, h] at hhead
  exact hhead

theorem historySegments_append {hist xs : List Segment} (hhist : ∀ s ∈ hist, isHistory s = true)
    (hxs : ∀ s rest, xs = s :: rest → isHistory s = false) : historySegments ⟨hist ++ xs⟩ = hist := by
  rw [historySegments, List.takeWhile_append_of_pos hhist]
  cases xs with
  | nil => simp
  | cons s rest => simp [hxs s rest rfl]

theorem isHistory_head_of_split {groups : List (List Segment)}
    (h : List.Forall₂ Split segments.conversionSegments groups)
    (hkeys : ∀ s ∈ segments.conversionSegments, s.key ≠ []) {s : Segment} {rest : List Segment}
    (hs : groups.flatten = s :: rest) : isHistory s = false := by
  cases hconv : segments.conversionSegments with
  | nil =>
    rw [hconv, List.forall₂_nil_left_iff] at h
    simp [h] at hs
  | cons old todo =>
    have hold := isHistory_head_conversionSegments hconv
    rw [hconv, List.forall₂_cons_left_iff] at h
    obtain ⟨new, groups', hsplit, -, rfl⟩ := h
    cases new with
    | nil => exact absurd hsplit.key.symm (hkeys old (by simp [hconv]))
    | cons first new =>
      obtain ⟨rfl, -⟩ : first = s ∧ new ++ groups'.flatten = rest := by simpa using hs
      rcases hsplit.type first (by simp) with htype | htype
      · rw [isHistory, htype]
        exact hold
      · simp [isHistory, htype]

end Segments

namespace ImmutableConverter

theorem insertCandidatesForConversion_eq {σ : Type} {converter : ImmutableConverter σ}
    {request : ConversionRequest} {m : Lattice} {group : List Nat} {segments : Segments} {filter : σ}
    {groups : List (List Segment)} (h : List.Forall₂ Split segments.conversionSegments groups)
    (hinsert : (insertCandidates converter request m group segments filter
      (if request.requestType = .reverseConversion then 1 else request.maxConversionCandidatesSize)
      .multiSegments).segments = segments.segments ++ groups.flatten) :
    (insertCandidatesForConversion converter request m group segments filter).segments =
      segments.historySegments ++ groups.flatten := by
  unfold insertCandidatesForConversion
  dsimp only
  generalize insertCandidates converter request m group segments filter _ .multiSegments =
    inserted at hinsert
  rcases inserted with ⟨xs⟩
  obtain rfl : xs = segments.segments ++ groups.flatten := hinsert
  have happ := segments.historySegments_append_conversionSegments
  have hlen := segments.length_conversionSegments
  cases hconv : segments.conversionSegments with
  | nil =>
    rw [hconv] at happ hlen
    rw [hconv, List.forall₂_nil_left_iff] at h
    rw [if_neg (by rw [← hlen]; simp), h, ← happ]
    simp
  | cons old rest =>
    have hhist : Segments.historySegments ⟨segments.segments ++ groups.flatten⟩ =
        segments.historySegments := by
      rw [← happ, List.append_assoc]
      refine Segments.historySegments_append (fun s hs => ?_) fun s rest' hs => ?_
      · exact Segments.isHistory_of_mem hs
      · rw [hconv, List.cons_append] at hs
        rw [← (List.cons.inj hs).1]
        exact Segments.isHistory_head_conversionSegments hconv
    have hpos : segments.conversionSegmentsSize > 0 := by
      rw [← hlen, hconv]
      exact Nat.succ_pos _
    have hsegments := congrArg List.length happ
    rw [List.length_append, hlen] at hsegments
    rw [if_pos hpos, Segments.eraseSegments, Segments.historySegmentsSize, hhist, if_neg (by
      rw [List.length_append]
      omega)]
    dsimp only
    rw [← hlen, ← happ, List.append_assoc, List.take_left, ← List.append_assoc,
      ← List.length_append, List.drop_left]

/-- `InsertCandidatesForConversion` on a lattice that `Viterbi` solved puts, behind the history
segments, new segments into which the conversion segments split.  They spell the same key, the old
boundaries are among theirs, and every one has a candidate. -/
theorem insertCandidatesForConversion_splits {σ : Type} (converter : ImmutableConverter σ)
    (request : ConversionRequest) (uninit : Nat → Nat → Int) (segments : Segments) (key : Bytes)
    (bosId : Nat) (nodes : List (Nat × Node)) (filter : σ) (m : Lattice)
    (hkey : key = Segments.joinedKey segments.segments) (hne : segments.segments ≠ [])
    (hkeys : ∀ s ∈ segments.segments, s.key ≠ []) (hlen : key.length < 2 ^ 16)
    (hrequest : request.requestType ≠ .reverseConversion ∨
      ∃ s, segments.conversionSegments = [s] ∧ s.segmentType = .free)
    (hpos : ∀ p ∈ nodes, p.1 < key.length) (hnodes : ∀ p ∈ nodes, p.2.key ≠ [])
    (hlid : ∀ p ∈ nodes, p.2.lid < converter.modules.connector.size)
    (hcon : ∀ p ∈ nodes, ∀ c, p.2.constrainedPrev = some c → c < nodes.length + 2 ∧
      ((Lattice.fill key bosId nodes).node c).endPos = p.1)
    (heos : ∀ p ∈ nodes, p.2.nodeType ≠ .eosNode)
    (hhis : ∀ p ∈ nodes, p.2.nodeType = .hisNode ↔
      p.1 < (Segments.joinedKey segments.historySegments).length)
    (hviterbi : viterbi converter.modules.connector uninit segments
      (Lattice.fill key bosId nodes) = some (true, m)) :
    ∃ groups : List (List Segment),
      List.Forall₂ Split segments.conversionSegments groups ∧
      (converter.insertCandidatesForConversion request m (makeGroup segments) segments
        filter).segments = segments.historySegments ++ groups.flatten ∧
      (converter.insertCandidatesForConversion request m (makeGroup segments) segments
        filter).historySegments = segments.historySegments ∧
      Segments.joinedKey groups.flatten = Segments.joinedKey segments.conversionSegments ∧
      (∀ i, ∃ j ≤ groups.flatten.length, Segments.joinedKey (groups.flatten.take j) =
        Segments.joinedKey (segments.conversionSegments.take i)) ∧
      ∀ s ∈ groups.flatten, s.candidates ≠ [] := by
  have happ := segments.historySegments_append_conversionSegments
  have hconv : ∀ s ∈ segments.conversionSegments, s.key ≠ [] := fun s hs =>
    hkeys s (by rw [← happ]; exact List.mem_append_right _ hs)
  have hfirst : ∃ segment ∈ segments.segments.head?, segment.key ≠ [] := by
    obtain ⟨s, rest, hs⟩ := List.exists_cons_of_ne_nil hne
    exact ⟨s, by rw [hs]; rfl, hkeys s (by rw [hs]; exact List.mem_cons_self)⟩
  have hl : Solvable segments.segments (Lattice.fill key bosId nodes) :=
    solvable_fill hkey hfirst hlen hpos hnodes (fun p hp => by
      have := hlid p hp
      have := converter.modules.connector.size_le
      omega) hcon
  obtain ⟨found, m', heq, hs⟩ := viterbi_searched converter.modules.connector uninit hl
  rw [hviterbi, Option.some_inj] at heq
  obtain ⟨rfl, rfl⟩ := Prod.mk.inj heq
  have hsize : segments.segments.length < 2 ^ 16 :=
    lt_of_le_of_lt (hkey ▸ Segments.length_le_joinedKey hkeys) hlen
  have hhistory : (Segments.joinedKey segments.historySegments).length ≤ key.length := by
    rw [hkey, ← happ, Segments.joinedKey_append, List.length_append]
    omega
  have hlpos := hl.key_pos
  rw [Lattice.fill_key] at hlpos
  have htype := Lattice.typed_fill hl.toFresh (List.length_pos_iff.mp hlpos) hlen hhistory hpos heos
    hhis
  obtain ⟨q, hq, hlength⟩ := hs.follows hl htype
  have hr : Replaceable request m segments :=
    { key_eq := by rw [hs.same.key, Lattice.fill_key, hkey]
      size_lt := hsize
      conversion_key := hconv
      request := hrequest }
  obtain ⟨groups, hsplit, hinsert⟩ := insertCandidates_path hr
    (hs.linked rfl).next_eos
    (by rw [hs.same.eosNode, hs.same.field _ Node.beginPos fun _ => rfl, hs.same.key, hl.eos_pos.1])
    hq hlength
    (by rw [hs.same.bosNode, hs.same.field _ Node.endPos fun _ => rfl, hl.bos_pos.2]) filter
    (if request.requestType = .reverseConversion then 1 else request.maxConversionCandidatesSize)
  have heq := insertCandidatesForConversion_eq hsplit hinsert
  refine ⟨groups, hsplit, heq, ?_, Segments.joinedKey_flatten hsplit,
    Segments.boundary_of_split hsplit, fun s hs => ?_⟩
  · have := @Segments.historySegments_append segments.historySegments _
      (fun s hs => Segments.isHistory_of_mem hs)
      fun s rest hs => Segments.isHistory_head_of_split hsplit hconv hs
    rwa [← heq] at this
  · obtain ⟨new, hnew, hmem⟩ := List.mem_flatten.mp hs
    obtain ⟨i, hi, rfl⟩ := List.mem_iff_getElem.mp hnew
    exact (hsplit.get (by rw [hsplit.length_eq]; exact hi) hi).filled s hmem

/-- A converter whose modules and scripts decide nothing. -/
def plainConverter : ImmutableConverter Unit where
  modules := plainModules zeroConnector
  scriptType _ := .other
  hiraganaToKatakana s := s
  charsLen := List.length

theorem insertCandidatesForConversion_splits_two_segments :
    let segments : Segments := ⟨[{ key := [0x61], segmentType := .history }, { key := [0x62] },
      { key := [0x63], segmentType := .fixedBoundary }]⟩
    let l := Lattice.fill [0x61, 0x62, 0x63] 0 [(0, { key := [0x61], nodeType := .hisNode }),
      (1, { key := [0x62] }), (2, { key := [0x63] })]
    ∃ m groups, viterbi zeroConnector (fun _ _ => 0) segments l = some (true, m) ∧
      List.Forall₂ Split segments.conversionSegments groups ∧
      (plainConverter.insertCandidatesForConversion {} m (makeGroup segments) segments
        ()).segments = segments.historySegments ++ groups.flatten := by
  intro segments l
  obtain ⟨⟨found, m⟩, hm, hfound⟩ := Option.map_eq_some_iff.mp
    (show (viterbi zeroConnector (fun _ _ => 0) segments l).map Prod.fst = some true by decide)
  obtain rfl : found = true := hfound
  obtain ⟨groups, hsplit, heq, -⟩ := insertCandidatesForConversion_splits plainConverter {}
    (fun _ _ => 0) segments [0x61, 0x62, 0x63] 0 [(0, { key := [0x61], nodeType := .hisNode }),
      (1, { key := [0x62] }), (2, { key := [0x63] })] () m rfl (by decide) (by decide) (by decide)
    (Or.inl (by decide)) (by decide) (by decide) (by decide) (by simp) (by decide) (by decide) hm
  exact ⟨m, groups, hm, hsplit, heq⟩

/-- In a reverse conversion two old segments of white space become one. -/
theorem insertCandidatesForConversion_joins_white_space :
    let segments : Segments := ⟨[{ key := [0x20] }, { key := [0x20] }]⟩
    let l := Lattice.fill [0x20, 0x20] 0 [(0, { key := [0x20] }), (1, { key := [0x20] })]
    ∃ m, viterbi zeroConnector (fun _ _ => 0) segments l = some (true, m) ∧
      ∀ j, Segments.joinedKey ((plainConverter.insertCandidatesForConversion
        { requestType := .reverseConversion } m (makeGroup segments) segments
        ()).segments.take j) ≠ Segments.joinedKey (segments.conversionSegments.take 1) := by
  intro segments l
  obtain ⟨⟨found, m⟩, hm, hfound⟩ := Option.map_eq_some_iff.mp
    (show (viterbi zeroConnector (fun _ _ => 0) segments l).map (fun r => (r.1,
      (plainConverter.insertCandidatesForConversion { requestType := .reverseConversion } r.2
        (makeGroup segments) segments ()).segments.map Segment.key)) = some (true, [[0x20, 0x20]])
      by decide)
  obtain ⟨rfl, hkeys⟩ := Prod.mk.inj hfound
  refine ⟨m, hm, fun j => ?_⟩
  rw [Segments.joinedKey, List.flatMap_def, List.map_take, hkeys]
  cases j with
  | zero => decide
  | succ j =>
    rw [List.take_succ_cons, List.take_nil]
    decide

end ImmutableConverter

end Mozkey.Converter
