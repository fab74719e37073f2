import Mozkey.Prediction.UserHistoryStamps

/-! The links between the entries of one commit: which of them `InsertHistoryForConversionSegments`
keeps, and when they form no cycle. -/

namespace Mozkey.Prediction

open Storage Base

def Leads (dic : Dic) (fp fp' : UInt64) : Prop :=
  ∃ entry, RecencyList.lookup dic fp = some entry ∧ fp' ∈ entry.nextEntryFps

def Acyclic (dic : Dic) : Prop := ∀ fp, ¬ Relation.TransGen (Leads dic) fp fp

section segments

variable (words : Words)

def SegmentForLearning.storedFp (segment : SegmentForLearning) : UInt64 :=
  fingerprint words.cityFingerprint (stripTrailingAsciiWhitespace segment.key)
    (stripTrailingAsciiWhitespace segment.value)

/-- The link from `s` behind the segments `before` to `t` is kept: the fingerprints of neither have
been seen in front of them. -/
def Links (segments before : List SegmentForLearning) (s t : SegmentForLearning) : Prop :=
  (∃ behind, segments = before ++ s :: t :: behind) ∧ (∀ r ∈ before, r.fps words ≠ s.fps words) ∧
    ∀ r ∈ before ++ [s], r.fps words ≠ t.fps words

def LinksAt (segments : List SegmentForLearning) (n : Nat) (s t : SegmentForLearning) : Prop :=
  ∃ before, before.length = n ∧ Links words segments before s t

/-- The link at the n-th segment leads to where the m-th segment is stored, whose link is kept. -/
def LeadsOn (segments : List SegmentForLearning) (n m : Nat) : Prop :=
  ∃ s t s' t', LinksAt words segments n s t ∧ LinksAt words segments m s' t' ∧
    s'.storedFp words ∈ t.fps words

/-- No kept link leads back, or to its own segment, from where the kept links lead to it. -/
def NoneLeadsBack (segments : List SegmentForLearning) : Prop :=
  ∀ n m, LeadsOn words segments n m → Relation.ReflTransGen (LeadsOn words segments) m n → n < m

end segments

section links

variable {words : Words} {now : Nat} {args : InsertArgs} {inserts : List InsertArgs}
  {fp fp' : UInt64} {entry : Entry}

theorem mem_insertNextEntry (h : fp' ∈ (insertNextEntry fp entry).nextEntryFps) :
    fp' = fp ∨ fp' ∈ entry.nextEntryFps := by
  rw [insertNextEntry] at h
  split at h
  · exact .inr h
  · have hmem := List.mem_of_mem_drop h
    rw [List.mem_append, List.mem_singleton] at hmem
    exact hmem.symm.imp_right List.mem_of_mem_filter

theorem mem_foldl_insertNextEntry {fps : List UInt64}
    (h : fp' ∈ (fps.foldl (fun entry fp => insertNextEntry fp entry) entry).nextEntryFps) :
    fp' ∈ fps ∨ fp' ∈ entry.nextEntryFps := by
  induction fps generalizing entry with
  | nil => exact .inr h
  | cons fp fps ih =>
    rcases ih h with hmem | hmem
    · exact .inl (List.mem_cons_of_mem _ hmem)
    · rcases mem_insertNextEntry hmem with rfl | hmem
      · exact .inl List.mem_cons_self
      · exact .inr hmem

theorem InsertArgs.mem_learn (h : fp' ∈ (args.learn entry).nextEntryFps) :
    fp' ∈ args.nextFps ∨ fp' ∈ entry.nextEntryFps := by
  rw [InsertArgs.learn] at h
  have hmem := mem_foldl_insertNextEntry h
  exact hmem

theorem exists_of_leads
    (h : Leads (inserts.foldl (insert words) { dic := [] }).dic fp fp') :
    ∃ args ∈ inserts, args.fp words = fp ∧ fp' ∈ args.nextFps := by
  induction inserts using List.reverseRecOn generalizing fp with
  | nil =>
    obtain ⟨entry, hentry, -⟩ := h
    cases hentry
  | append_singleton inserts args ih =>
    have hkeep : ∀ {fp}, Leads (inserts.foldl (insert words) { dic := [] }).dic fp fp' →
        ∃ a ∈ inserts ++ [args], a.fp words = fp ∧ fp' ∈ a.nextFps := by
      intro fp hleads
      obtain ⟨a, ha, hrest⟩ := ih hleads
      exact ⟨a, List.mem_append_left _ ha, hrest⟩
    obtain ⟨entry, hentry, hmem⟩ := h
    rw [List.foldl_concat, insert_dic] at hentry
    split at hentry
    · rcases lookup_insert_cases hentry with ⟨rfl, rfl⟩ | ⟨-, hentry⟩
      · rcases args.mem_learn hmem with hmem | hmem
        · exact ⟨args, List.mem_append_right _ (List.mem_singleton_self _), rfl, hmem⟩
        · cases hold : RecencyList.lookup (inserts.foldl (insert words) { dic := [] }).dic
              (args.fp words) with
          | none =>
            rw [hold] at hmem
            cases hmem
          | some old =>
            rw [hold] at hmem
            exact hkeep ⟨old, hold, hmem⟩
      · exact hkeep ⟨entry, hentry, hmem⟩
    · exact hkeep ⟨entry, hentry, hmem⟩

theorem exists_links {before segments : List SegmentForLearning} {allow thisWasSeen : Bool}
    {seen : List (List UInt64)}
    (hthis : thisWasSeen = false → ∀ s ∈ segments.head?, ∀ r ∈ before, r.fps words ≠ s.fps words)
    (hseen : ∀ r ∈ before ++ segments.head?.toList, r.fps words ∈ seen)
    (hargs : args ∈ segmentsInserts words now segments allow thisWasSeen seen)
    (hnext : fp' ∈ args.nextFps) :
    ∃ before' s t, Links words (before ++ segments) before' s t ∧
      args.fp words = s.storedFp words ∧ fp' ∈ t.fps words := by
  induction segments generalizing before allow thisWasSeen seen with
  | nil => cases hargs
  | cons s segments ih =>
    rw [segmentsInserts, List.mem_append] at hargs
    rcases hargs with hargs | hargs
    · rw [segmentInserts, List.mem_append] at hargs
      rcases hargs with hargs | hargs
      · split at hargs
        · rw [List.mem_singleton.mp hargs] at hnext
          cases hnext
        · cases hargs
      · rw [List.mem_singleton.mp hargs] at hnext ⊢
        dsimp only at hnext
        split at hnext
        · cases hnext
        · rename_i hkept
          rw [Bool.or_eq_true, not_or, Bool.not_eq_true, decide_eq_true_eq] at hkept
          cases segments with
          | nil => cases hnext
          | cons t segments =>
            refine ⟨before, s, t, ⟨⟨segments, rfl⟩, hthis hkept.1 s rfl, fun r hr heq => ?_⟩, rfl,
              hnext⟩
            have hmem := hseen r hr
            rw [heq] at hmem
            exact hkept.2 hmem
    · have hsplit : before ++ s :: segments = before ++ [s] ++ segments := by
        rw [List.append_assoc, List.singleton_append]
      rw [hsplit]
      refine ih (fun hfirst t ht r hr heq => ?_) (fun r hr => ?_) hargs
      · rw [decide_eq_false_iff_not] at hfirst
        have hmem := hseen r hr
        rw [heq] at hmem
        rw [Option.mem_def.mp ht] at hfirst
        exact hfirst hmem
      · rcases List.mem_append.mp hr with hr | hr
        · exact List.mem_cons_of_mem _ (hseen r hr)
        · rw [Option.mem_toList] at hr
          rw [Option.mem_def.mp hr]
          exact List.mem_cons_self

theorem exists_links_of_leads {learning : SegmentsForLearning}
    (h : Leads ((conversionInserts words now learning).foldl (insert words) { dic := [] }).dic
      fp fp') :
    ∃ before s t, Links words learning.conversionSegments before s t ∧ s.storedFp words = fp ∧
      fp' ∈ t.fps words := by
  obtain ⟨args, hargs, rfl, hnext⟩ := exists_of_leads h
  rw [conversionInserts, List.mem_append] at hargs
  rcases hargs with hargs | hargs
  · split at hargs
    · rw [List.mem_singleton.mp hargs] at hnext
      cases hnext
    · cases hargs
  · have hseen : ∀ r ∈ [] ++ learning.conversionSegments.head?.toList,
        r.fps words ∈
          (learning.conversionSegments.head?.map (SegmentForLearning.fps words)).toList := by
      intro r hr
      rw [List.nil_append, Option.mem_toList] at hr
      rw [Option.mem_def.mp hr]
      exact List.mem_singleton_self _
    obtain ⟨before, s, t, hlinks, hfp, ht⟩ :=
      exists_links (fun _ _ _ r hr => absurd hr List.not_mem_nil) hseen hargs hnext
    exact ⟨before, s, t, hlinks, hfp.symm, ht⟩

theorem leadsOn_of_transGen {learning : SegmentsForLearning}
    (h : Relation.TransGen
      (Leads ((conversionInserts words now learning).foldl (insert words) { dic := [] }).dic)
      fp fp') :
    ∃ n m s t s' t', Relation.ReflTransGen (LeadsOn words learning.conversionSegments) n m ∧
      LinksAt words learning.conversionSegments n s t ∧ s.storedFp words = fp ∧
      LinksAt words learning.conversionSegments m s' t' ∧ fp' ∈ t'.fps words := by
  induction h with
  | single hleads =>
    obtain ⟨before, s, t, hlinks, hfp, ht⟩ := exists_links_of_leads hleads
    exact ⟨_, _, s, t, s, t, .refl, ⟨before, rfl, hlinks⟩, hfp, ⟨before, rfl, hlinks⟩, ht⟩
  | tail _ hleads ih =>
    obtain ⟨n, m, s, t, s', t', hpath, hstart, hfp, hend, ht'⟩ := ih
    obtain ⟨before, s₂, t₂, hlinks, hfp₂, ht₂⟩ := exists_links_of_leads hleads
    refine ⟨n, _, s, t, s₂, t₂, hpath.tail ?_, hstart, hfp, ⟨before, rfl, hlinks⟩, ht₂⟩
    exact ⟨s', t', s₂, t₂, hend, ⟨before, rfl, hlinks⟩, hfp₂.symm ▸ ht'⟩

theorem NoneLeadsBack.le {segments : List SegmentForLearning} (h : NoneLeadsBack words segments)
    {n m : Nat} (hpath : Relation.ReflTransGen (LeadsOn words segments) n m)
    (hback : Relation.ReflTransGen (LeadsOn words segments) m n) : n ≤ m := by
  induction hpath with
  | refl => exact Nat.le_refl n
  | tail hpath hstep ih =>
    exact (ih (.head hstep hback)).trans (h _ _ hstep (hback.trans hpath)).le

end links

end Mozkey.Prediction
