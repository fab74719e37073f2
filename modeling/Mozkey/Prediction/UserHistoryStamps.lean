import Mozkey.Prediction.UserHistoryLookup
import Mozkey.Prediction.UserHistoryRevert

/-! The time and the partial match that `Finish` leaves in the entries that it inserts: every call of
`Insert` is followed through the storage, and what comes after it keeps both. -/

namespace Mozkey.Prediction

open Storage Base

section calls

variable (words : Words) (request : FinishRequest) (syncing : Bool) (now : Nat) (result : Result)
  (dic : Dic)

/-- The call of `Insert` in `InsertHistoryForHistorySegments`, if it is reached. -/
def spacePrefixCall : Option InsertArgs := do
  let learning := makeSegmentsForLearning words request dic result
  let (historySegment, conversionSegment) ← linkedSegments learning
  let dic := ((conversionInserts words now learning).foldl (insert words) { dic }).dic
  let _ ← RecencyList.lookup dic (historySegment.fp words)
  spacePrefixInsert now learning conversionSegment

def finishInserts : List InsertArgs :=
  if Accepts words request syncing result then
    conversionInserts words now (makeSegmentsForLearning words request dic result) ++
      (spacePrefixCall words request now result dic).toList
  else []

/-- Some call does not return early and inserts the entry of `fp`. -/
def Touches (inserts : List InsertArgs) (fp : UInt64) : Prop :=
  ∃ args ∈ inserts, args.IsLearned words ∧ args.fp words = fp

/-- The entry of a segment or of its content word. -/
def SegmentForLearning.IsStoredUnder (segment : SegmentForLearning) (fp : UInt64) : Prop :=
  fp = fingerprint words.cityFingerprint (stripTrailingAsciiWhitespace segment.key)
      (stripTrailingAsciiWhitespace segment.value) ∨
    fp = fingerprint words.cityFingerprint (stripTrailingAsciiWhitespace segment.contentKey)
      (stripTrailingAsciiWhitespace segment.contentValue)

def boost (entry : Entry) : Nat :=
  if entry.attributes &&& bigramBoost ≠ 0 then kBigramBoostAsTime else 0

/-- The bounds below which `GetScore` does not wrap. -/
def InScoreRange (entry : Entry) : Prop :=
  charsLen entry.value ≤ entry.lastAccessTime ∧ entry.lastAccessTime + kBigramBoostAsTime < 2 ^ 32

/-- Every entry that `Finish` inserts has the time of the commit, may match partially only if it could
before or is of the first segment of a proper noun, and is scored by its time. -/
structure Stamps (final : Dic) : Prop where
  lastAccessTime : ∀ fp entry, Touches words (finishInserts words request syncing now result dic) fp →
    RecencyList.lookup final fp = some entry → entry.lastAccessTime = now
  allowPartialMatch : ∀ fp entry,
    Touches words (finishInserts words request syncing now result dic) fp →
    RecencyList.lookup final fp = some entry → entry.allowPartialMatch = true →
    (∃ before, RecencyList.lookup dic fp = some before ∧ before.allowPartialMatch = true) ∨
      words.isProperNoun request result = true ∧
        ∃ segment ∈ (makeLearningSegments result).head?, segment.IsStoredUnder words fp
  score : ∀ fp entry, Touches words (finishInserts words request syncing now result dic) fp →
    RecencyList.lookup final fp = some entry → ∀ attributes,
    charsLen entry.value ≤ now → now + kBigramBoostAsTime < 2 ^ 32 →
    getScore { entry with attributes } = now - charsLen entry.value + boost { entry with attributes }
  recency : ∀ fp entry, Touches words (finishInserts words request syncing now result dic) fp →
    RecencyList.lookup final fp = some entry →
    charsLen entry.value ≤ now → now + kBigramBoostAsTime < 2 ^ 32 →
    ∀ other, InScoreRange other → boost other = boost entry →
    (getScore other ≤ getScore entry ↔
      other.lastAccessTime + charsLen entry.value ≤ now + charsLen other.value)

end calls

theorem getScore_eq {entry : Entry} (h : InScoreRange entry) :
    getScore entry = entry.lastAccessTime - charsLen entry.value + boost entry := by
  obtain ⟨hle, hlt⟩ := h
  have hboost : boost entry ≤ kBigramBoostAsTime := by
    rw [boost]
    split <;> omega
  have heq : getScore entry =
      (entry.lastAccessTime + (2 ^ 64 - charsLen entry.value) + boost entry) % 2 ^ 32 := rfl
  rw [heq]
  omega

section insertions

variable {words : Words} {now : Nat} {s : Learning} {args : InsertArgs} {inserts : List InsertArgs}
  {dic : Dic} {fp : UInt64} {entry : Entry}

theorem lookup_insert_cases {entries : Dic} {limit : Nat} {key : UInt64} {value : Entry}
    (h : RecencyList.lookup (RecencyList.insert entries limit key value) fp = some entry) :
    fp = key ∧ entry = value ∨ fp ≠ key ∧ RecencyList.lookup entries fp = some entry := by
  rw [RecencyList.insert, RecencyList.lookup_cons] at h
  split at h
  · rename_i heq
    exact .inl ⟨heq, (Option.some.inj h).symm⟩
  · rename_i hne
    refine .inr ⟨hne, ?_⟩
    have herase : RecencyList.lookup (RecencyList.erase entries key) fp =
        RecencyList.lookup entries fp := by
      rw [RecencyList.lookup_erase, if_neg hne]
    rw [← herase]
    split at h
    · exact h
    · rw [RecencyList.lookup] at h ⊢
      obtain ⟨x, hx, hentry⟩ := Option.map_eq_some_iff.mp h
      rw [(List.dropLast_prefix _).find?_eq_some hx]
      exact congrArg some hentry

theorem InsertArgs.learn_stamp (args : InsertArgs) (entry : Entry) :
    (args.learn entry).lastAccessTime = args.lastAccessTime ∧
      (args.learn entry).allowPartialMatch = (args.allowPartialMatch || entry.allowPartialMatch) := by
  obtain ⟨nextEntryFps, h⟩ := args.learn_eq entry
  rw [h]
  exact ⟨rfl, rfl⟩

theorem insert_dic (s : Learning) (args : InsertArgs) : (insert words s args).dic =
    if args.IsLearned words then
      RecencyList.insert s.dic kLruCacheSize (args.fp words)
        (args.learn ((RecencyList.lookup s.dic (args.fp words)).getD {}))
    else s.dic := by
  rw [Mozkey.Prediction.insert]
  split <;> rfl

/-- The entries after some calls of `Insert`, all of them at `now`. -/
structure Inserted (words : Words) (now : Nat) (before : Dic) (inserts : List InsertArgs)
    (dic : Dic) : Prop where
  lastAccessTime : ∀ fp entry, Touches words inserts fp → RecencyList.lookup dic fp = some entry →
    entry.lastAccessTime = now
  allowPartialMatch : ∀ fp entry, RecencyList.lookup dic fp = some entry →
    entry.allowPartialMatch = true →
    (∃ old, RecencyList.lookup before fp = some old ∧ old.allowPartialMatch = true) ∨
      ∃ args ∈ inserts, args.allowPartialMatch = true ∧ args.fp words = fp

theorem Inserted.insert {before : Dic} (h : Inserted words now before inserts s.dic)
    (htime : args.lastAccessTime = now) :
    Inserted words now before (inserts ++ [args]) (insert words s args).dic := by
  rw [insert_dic]
  by_cases hlearned : args.IsLearned words
  swap
  · rw [if_neg hlearned]
    refine ⟨fun fp entry ⟨a, ha, hal, hafp⟩ => h.lastAccessTime fp entry ⟨a, ?_, hal, hafp⟩,
      fun fp entry he hallow => (h.allowPartialMatch fp entry he hallow).imp_right ?_⟩
    · rcases List.mem_append.mp ha with ha | ha
      · exact ha
      · exact absurd (List.mem_singleton.mp ha ▸ hal) hlearned
    · rintro ⟨a, ha, hrest⟩
      exact ⟨a, List.mem_append_left _ ha, hrest⟩
  rw [if_pos hlearned]
  obtain ⟨hstamp, hallowed⟩ := args.learn_stamp ((RecencyList.lookup s.dic (args.fp words)).getD {})
  constructor
  · rintro fp entry ⟨a, ha, hal, hafp⟩ he
    rcases lookup_insert_cases he with ⟨-, rfl⟩ | ⟨hne, he⟩
    · rw [hstamp, htime]
    · refine h.lastAccessTime fp entry ⟨a, ?_, hal, hafp⟩ he
      rcases List.mem_append.mp ha with ha | ha
      · exact ha
      · rw [List.mem_singleton.mp ha] at hafp
        exact absurd hafp.symm hne
  · intro fp entry he hallow
    rcases lookup_insert_cases he with ⟨rfl, rfl⟩ | ⟨-, he⟩
    · rw [hallowed, Bool.or_eq_true] at hallow
      rcases hallow with hallow | hallow
      · exact .inr ⟨args, List.mem_append_right _ (List.mem_singleton_self _), hallow, rfl⟩
      · cases hold : RecencyList.lookup s.dic (args.fp words) with
        | none =>
          rw [hold] at hallow
          cases hallow
        | some old =>
          rw [hold] at hallow
          refine (h.allowPartialMatch _ old hold hallow).imp_right ?_
          rintro ⟨a, ha, hrest⟩
          exact ⟨a, List.mem_append_left _ ha, hrest⟩
    · refine (h.allowPartialMatch fp entry he hallow).imp_right ?_
      rintro ⟨a, ha, hrest⟩
      exact ⟨a, List.mem_append_left _ ha, hrest⟩

theorem Inserted.foldl (before : Dic) (htime : ∀ args ∈ inserts, args.lastAccessTime = now) :
    Inserted words now before inserts
      (inserts.foldl (Mozkey.Prediction.insert words) { dic := before }).dic := by
  induction inserts using List.reverseRecOn with
  | nil => exact ⟨fun _ _ ⟨_, ha, _⟩ => absurd ha List.not_mem_nil, fun fp entry he hallow =>
      .inl ⟨entry, he, hallow⟩⟩
  | append_singleton inserts args ih =>
    rw [List.foldl_concat]
    refine (ih fun a ha => htime a (List.mem_append_left _ ha)).insert (htime args ?_)
    exact List.mem_append_right _ (List.mem_singleton_self _)

/-- The entries of two storages have the same times and the same partial matches. -/
def SameStamps (dic dic' : Dic) : Prop :=
  ∀ fp, (RecencyList.lookup dic' fp).map (fun e => (e.lastAccessTime, e.allowPartialMatch)) =
    (RecencyList.lookup dic fp).map fun e => (e.lastAccessTime, e.allowPartialMatch)

theorem SameStamps.trans {dic' dic'' : Dic} (h : SameStamps dic dic') (h' : SameStamps dic' dic'') :
    SameStamps dic dic'' := fun fp => (h' fp).trans (h fp)

theorem SameStamps.exists_of_lookup {dic' : Dic} (h : SameStamps dic dic')
    (he : RecencyList.lookup dic' fp = some entry) : ∃ old, RecencyList.lookup dic fp = some old ∧
      entry.lastAccessTime = old.lastAccessTime ∧
      entry.allowPartialMatch = old.allowPartialMatch := by
  have hfp := h fp
  rw [he] at hfp
  obtain ⟨old, hold, hstamp⟩ := Option.map_eq_some_iff.mp hfp.symm
  rw [Prod.mk.injEq] at hstamp
  exact ⟨old, hold, hstamp.1.symm, hstamp.2.symm⟩

theorem sameStamps_modify {key : UInt64} {f : Entry → Entry}
    (h : ∀ e, RecencyList.lookup dic key = some e → (f e).lastAccessTime = e.lastAccessTime ∧
      (f e).allowPartialMatch = e.allowPartialMatch) : SameStamps dic (dic.modify key f) := by
  intro fp
  rw [lookup_modify]
  split
  · rename_i heq
    subst heq
    cases he : RecencyList.lookup dic fp with
    | none => rfl
    | some e =>
      obtain ⟨htime, hallow⟩ := h e he
      simp only [Option.map_some, htime, hallow]
  · rfl

theorem sameStamps_link (fps : List UInt64) : SameStamps dic (dic.modify fp fun entry =>
    fps.foldl (fun entry next => insertNextEntry next entry) entry) := by
  refine sameStamps_modify fun e _ => ?_
  obtain ⟨nextEntryFps, h⟩ := foldl_insertNextEntry fps e
  rw [h]
  exact ⟨rfl, rfl⟩

theorem sameStamps_showResult (result : Result) :
    SameStamps s.dic (showResult words s result).dic := by
  cases hentry : RecencyList.lookup s.dic (result.fp words) with
  | none =>
    rw [showResult]
    dsimp only
    rw [hentry]
    exact fun _ => rfl
  | some entry =>
    have hsame : ∀ e, RecencyList.lookup s.dic (result.fp words) = some e → e = entry := fun e he =>
      Option.some.inj (he.symm.trans hentry)
    rw [showResult_some hentry]
    split
    · refine sameStamps_modify (f := fun _ => entry.remove) fun e he => ?_
      rw [hsame e he]
      exact ⟨rfl, rfl⟩
    · refine sameStamps_modify
        (f := fun _ => { entry with shownFreq := entry.shownFreq + 1 }) fun e he => ?_
      rw [hsame e he]
      exact ⟨rfl, rfl⟩

theorem sameStamps_maybeRemoveUnselectedHistory (results : List Result) :
    SameStamps s.dic (maybeRemoveUnselectedHistory words results s).dic := by
  rw [maybeRemoveUnselectedHistory]
  generalize results.take kMaxHistorySize = results
  induction results generalizing s with
  | nil => exact fun _ => rfl
  | cons result results ih => exact (sameStamps_showResult result).trans ih

/-- The calls for a segment are at the time of the commit, and only the first segment of a proper noun
is inserted for partial matches. -/
theorem segmentInserts_spec {segment : SegmentForLearning} {nextFps : List UInt64} {allow : Bool}
    (hargs : args ∈ segmentInserts now segment nextFps allow) : args.lastAccessTime = now ∧
      (args.allowPartialMatch = true → allow = true ∧ segment.IsStoredUnder words (args.fp words)) := by
  rw [segmentInserts, List.mem_append] at hargs
  rcases hargs with hargs | hargs
  · split at hargs
    · rw [List.mem_singleton.mp hargs]
      exact ⟨rfl, fun hallow => ⟨hallow, .inr rfl⟩⟩
    · cases hargs
  · rw [List.mem_singleton.mp hargs]
    exact ⟨rfl, fun hallow => ⟨(Bool.and_eq_true _ _ ▸ hallow).1, .inl rfl⟩⟩

theorem segmentsInserts_spec {segments : List SegmentForLearning} {allow thisWasSeen : Bool}
    {seen : List (List UInt64)}
    (hargs : args ∈ segmentsInserts words now segments allow thisWasSeen seen) :
    args.lastAccessTime = now ∧ (args.allowPartialMatch = true → allow = true ∧
      ∃ segment ∈ segments.head?, segment.IsStoredUnder words (args.fp words)) := by
  induction segments generalizing allow thisWasSeen seen with
  | nil => cases hargs
  | cons segment segments ih =>
    rw [segmentsInserts, List.mem_append] at hargs
    rcases hargs with hargs | hargs
    · obtain ⟨htime, hallow⟩ := @segmentInserts_spec words _ _ _ _ _ hargs
      exact ⟨htime, fun h => ⟨(hallow h).1, segment, rfl, (hallow h).2⟩⟩
    · obtain ⟨htime, hallow⟩ := ih hargs
      exact ⟨htime, fun h => absurd (hallow h).1 Bool.false_ne_true⟩

theorem conversionInserts_spec {learning : SegmentsForLearning}
    (hargs : args ∈ conversionInserts words now learning) : args.lastAccessTime = now ∧
      (args.allowPartialMatch = true → learning.allowPartialMatch = true ∧
        ∃ segment ∈ learning.conversionSegments.head?,
          segment.IsStoredUnder words (args.fp words)) := by
  rw [conversionInserts, List.mem_append] at hargs
  rcases hargs with hargs | hargs
  · split at hargs
    · rw [List.mem_singleton.mp hargs]
      exact ⟨rfl, fun hallow => absurd hallow Bool.false_ne_true⟩
    · cases hargs
  · exact segmentsInserts_spec hargs

end insertions

section commits

variable {words : Words} {request : FinishRequest} {syncing : Bool} {now : Nat} {result : Result}
  {dic final : Dic}

theorem stamps_of_inserted
    (htime : ∀ fp entry, Touches words (finishInserts words request syncing now result dic) fp →
      RecencyList.lookup final fp = some entry → entry.lastAccessTime = now)
    (hallow : ∀ fp entry, Touches words (finishInserts words request syncing now result dic) fp →
      RecencyList.lookup final fp = some entry → entry.allowPartialMatch = true →
      (∃ before, RecencyList.lookup dic fp = some before ∧ before.allowPartialMatch = true) ∨
        words.isProperNoun request result = true ∧
          ∃ segment ∈ (makeLearningSegments result).head?, segment.IsStoredUnder words fp) :
    Stamps words request syncing now result dic final where
  lastAccessTime := htime
  allowPartialMatch := hallow
  score fp entry htouch he attributes hlen hlt := by
    have heq := htime fp entry htouch he
    have hrange : InScoreRange { entry with attributes } := ⟨heq ▸ hlen, heq ▸ hlt⟩
    rw [getScore_eq hrange, heq]
  recency fp entry htouch he hlen hlt other hother hboost := by
    have heq := htime fp entry htouch he
    have hrange : InScoreRange entry := ⟨heq ▸ hlen, heq ▸ hlt⟩
    have hle := hother.1
    rw [getScore_eq hrange, getScore_eq hother, hboost, heq]
    omega

/-- After the calls for the conversion segments, the storage changes its entries no more, unless there
is one for the word behind a space. -/
theorem learn_dic (results : List Result) :
    SameStamps (((conversionInserts words now (makeSegmentsForLearning words request dic result) ++
      (spacePrefixCall words request now result dic).toList).foldl (insert words) { dic }).dic)
        (learn words request now result results dic).dic := by
  refine SameStamps.trans ?_ (sameStamps_maybeRemoveUnselectedHistory _)
  rw [insertHistory, insertHistoryForHistorySegments, spacePrefixCall, List.foldl_append]
  dsimp only
  generalize makeSegmentsForLearning words request dic result = learning
  generalize (conversionInserts words now learning).foldl (insert words) { dic } = inserted
  cases hlinked : linkedSegments learning with
  | none => exact fun _ => rfl
  | some segments =>
    obtain ⟨historySegment, conversionSegment⟩ := segments
    rw [Option.bind_eq_bind, Option.bind_some]
    dsimp only
    cases hentry : RecencyList.lookup inserted.dic (historySegment.fp words) with
    | none => exact fun _ => rfl
    | some historyEntry =>
      rw [Option.bind_eq_bind, Option.bind_some]
      cases spacePrefixInsert now learning conversionSegment with
      | none => exact sameStamps_link _
      | some args =>
        have hdic : (insert words { inserted with
            revertEntries := { inserted.revertEntries with historyEntry := some historyEntry } }
              args).dic = (insert words inserted args).dic := by
          rw [insert_dic, insert_dic]
        rw [Option.toList_some, List.foldl_cons, List.foldl_nil, ← hdic]
        exact sameStamps_link _

theorem exists_of_spacePrefixCall {args : InsertArgs}
    (h : spacePrefixCall words request now result dic = some args) : args.lastAccessTime = 0 := by
  rw [spacePrefixCall] at h
  dsimp only at h
  obtain ⟨segments, -, h⟩ := Option.bind_eq_some_iff.mp h
  obtain ⟨historyEntry, -, h⟩ := Option.bind_eq_some_iff.mp h
  rw [spacePrefixInsert] at h
  split at h
  · cases h
    rfl
  · cases h

theorem exists_lookup_of_call {args : InsertArgs} (results : List Result)
    (hcall : spacePrefixCall words request now result dic = some args)
    (hlearned : args.IsLearned words) :
    ∃ entry, RecencyList.lookup (learn words request now result results dic).dic (args.fp words) =
      some entry ∧ entry.lastAccessTime = 0 := by
  have hsame := @learn_dic words request now result dic results (args.fp words)
  rw [hcall, Option.toList_some, List.foldl_concat, insert_dic, if_pos hlearned, RecencyList.insert,
    RecencyList.lookup_cons, if_pos rfl] at hsame
  obtain ⟨entry, hentry, hstamp⟩ := Option.map_eq_some_iff.mp hsame
  refine ⟨entry, hentry, ?_⟩
  rw [Prod.mk.injEq] at hstamp
  rw [hstamp.1, (args.learn_stamp _).1]
  exact exists_of_spacePrefixCall hcall

theorem stamps_learn (results : List Result) (haccepts : Accepts words request syncing result)
    (hcall : ∀ args, spacePrefixCall words request now result dic = some args →
      ¬ args.IsLearned words) :
    Stamps words request syncing now result dic (learn words request now result results dic).dic := by
  have hinserts := @Inserted.foldl words now
    (conversionInserts words now (makeSegmentsForLearning words request dic result)) dic
    fun args hargs => (conversionInserts_spec hargs).1
  have hsame := @learn_dic words request now result dic results
  have htouch : ∀ fp, Touches words (finishInserts words request syncing now result dic) fp →
      Touches words (conversionInserts words now (makeSegmentsForLearning words request dic result))
        fp := by
    rintro fp ⟨args, hargs, hlearned, hfp⟩
    rw [finishInserts, if_pos haccepts, List.mem_append, Option.mem_toList] at hargs
    rcases hargs with hargs | hargs
    · exact ⟨args, hargs, hlearned, hfp⟩
    · exact absurd hlearned (hcall args hargs)
  have hdic : SameStamps ((conversionInserts words now
      (makeSegmentsForLearning words request dic result)).foldl (insert words) { dic }).dic
        (learn words request now result results dic).dic := by
    cases hargs : spacePrefixCall words request now result dic with
    | none => simpa [hargs] using hsame
    | some args =>
      rw [hargs, Option.toList_some, List.foldl_concat, insert_dic, if_neg (hcall args hargs)] at hsame
      exact hsame
  refine stamps_of_inserted (fun fp entry h he => ?_) fun fp entry h he hallow => ?_
  · obtain ⟨old, hold, htime, -⟩ := hdic.exists_of_lookup he
    rw [htime]
    exact hinserts.lastAccessTime fp old (htouch fp h) hold
  · obtain ⟨old, hold, -, heq⟩ := hdic.exists_of_lookup he
    rw [heq] at hallow
    refine (hinserts.allowPartialMatch fp old hold hallow).imp_right ?_
    rintro ⟨args, hargs, hallowed, rfl⟩
    exact (conversionInserts_spec hargs).2 hallowed

/-- The entries have the time of the commit if and only if no word behind a space is inserted. -/
theorem finish_stamps_iff (words : Words) (request : FinishRequest) (syncing : Bool) {now : Nat}
    (hnow : 0 < now) (result : Result) (results : List Result) (revertId : UInt32)
    (s : HistoryState) :
    Stamps words request syncing now result s.dic
        (finish words request syncing now (result :: results) revertId s).dic ↔
      ¬ (Accepts words request syncing result ∧
        ∃ args, spacePrefixCall words request now result s.dic = some args ∧
          args.IsLearned words) := by
  rw [finish]
  by_cases haccepts : Accepts words request syncing result
  · rw [if_pos haccepts]
    constructor
    · rintro h ⟨-, args, hcall, hlearned⟩
      obtain ⟨entry, hentry, hzero⟩ := exists_lookup_of_call results hcall hlearned
      have htouch : Touches words (finishInserts words request syncing now result s.dic)
          (args.fp words) := by
        refine ⟨args, ?_, hlearned, rfl⟩
        rw [finishInserts, if_pos haccepts, hcall]
        exact List.mem_append_right _ (List.mem_singleton_self _)
      have htime := h.lastAccessTime _ entry htouch hentry
      omega
    · intro h
      refine stamps_learn results haccepts fun args hcall hlearned => ?_
      exact h ⟨haccepts, args, hcall, hlearned⟩
  · rw [if_neg haccepts]
    have hnone : ∀ fp, ¬ Touches words (finishInserts words request syncing now result s.dic) fp := by
      rintro fp ⟨args, hargs, -⟩
      rw [finishInserts, if_neg haccepts] at hargs
      cases hargs
    refine iff_of_true (stamps_of_inserted ?_ ?_) fun h => haccepts h.1
    · exact fun fp _ htouch _ => absurd htouch (hnone fp)
    · exact fun fp _ htouch _ _ => absurd htouch (hnone fp)

/-- `a` is committed at the start of a text. -/
theorem finish_stamps_single :
    Stamps summedWords {} false 5 { key := [0x61], value := [0x41] } []
      (finish summedWords {} false 5 [{ key := [0x61], value := [0x41] }] 1
        ⟨[], fun _ => none⟩).dic := by
  refine (finish_stamps_iff summedWords {} false (by decide) { key := [0x61], value := [0x41] } [] 1
    ⟨[], fun _ => none⟩).mpr ?_
  rintro ⟨-, args, hcall, -⟩
  have hnone : spacePrefixCall summedWords {} 5 { key := [0x61], value := [0x41] } [] = none := by
    decide
  rw [hnone] at hcall
  cases hcall

/-- `b` is committed behind `a` and a space: its entry is stored for the time zero, and for partial
matches. -/
theorem not_stamps_behind_space :
    ¬ Stamps summedWords { precedingText := [0x61, 0x20] } false 5 { key := [0x62], value := [0x62] }
      [chained [0x61] [0x61] []]
      (finish summedWords { precedingText := [0x61, 0x20] } false 5
        [{ key := [0x62], value := [0x62] }] 1 ⟨[chained [0x61] [0x61] []], fun _ => none⟩).dic := by
  intro h
  have hlookup : ∃ entry, RecencyList.lookup
      (finish summedWords { precedingText := [0x61, 0x20] } false 5
        [{ key := [0x62], value := [0x62] }] 1 ⟨[chained [0x61] [0x61] []], fun _ => none⟩).dic
      (fingerprint byteSum (kPrefixZeroSpace ++ [0x62]) (kPrefixZeroSpace ++ [0x62])) = some entry ∧
        entry.lastAccessTime = 0 ∧ entry.allowPartialMatch = true := ⟨_, rfl, rfl, rfl⟩
  obtain ⟨entry, hentry, hzero, -⟩ := hlookup
  have htouch : Touches summedWords (finishInserts summedWords { precedingText := [0x61, 0x20] } false
      5 { key := [0x62], value := [0x62] } [chained [0x61] [0x61] []])
      (fingerprint byteSum (kPrefixZeroSpace ++ [0x62]) (kPrefixZeroSpace ++ [0x62])) := by
    refine ⟨{ key := kPrefixZeroSpace ++ [0x62], value := kPrefixZeroSpace ++ [0x62],
              description := [], innerSegmentBoundary := [], nextFps := [],
              allowPartialMatch := true, lastAccessTime := 0 }, ?_, ?_, ?_⟩
    · decide
    · decide
    · decide
  have htime := h.lastAccessTime _ entry htouch hentry
  omega

end commits

end Mozkey.Prediction
