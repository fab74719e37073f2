import Mozkey.Prediction.UserHistoryLookupCorrect
import Mozkey.Prediction.UserHistoryRedo
import Mozkey.Prediction.UserHistoryStamps

/-! When `MaybeProcessPartialRevertEntry` takes back the `Revert` in front of it, and what it leaves
reverted. -/

namespace Mozkey.Prediction.Redo

open Storage Base

section specs

variable (words : Words)

/-- The entries that `Revert` overwrites, each as it stands there in front of it. -/
def snapshots : List OffsetEntry → Dic → List OffsetEntry
  | [], _ => []
  | e :: entries, dic =>
    let fp := e.entry.fp words.cityFingerprint
    (RecencyList.lookup dic fp).toList.map (fun committed => { e with entry := committed }) ++
      snapshots entries (dic.modify fp fun _ => e.entry)

def RevertEntries.written (revertEntries : RevertEntries) : Prediction.RevertEntries :=
  { entries := revertEntries.entries.map OffsetEntry.entry
    historyEntry := revertEntries.historyEntry }

def RevertEntries.committed (revertEntries : RevertEntries) (dic : Dic) : RevertEntries :=
  { result := revertEntries.result
    historyEntry := revertEntries.historyEntry.bind fun entry =>
      RecencyList.lookup
        ((revertEntries.entries.map OffsetEntry.entry).foldl (Prediction.revertEntry words.toWords) dic)
        (entry.fp words.cityFingerprint)
    entries := snapshots words revertEntries.entries dic }

def BringsBack (actualValueEnd : Nat) (e : OffsetEntry) : Prop :=
  isValidUtf8 e.entry.value = true ∧ isValidUtf8 e.entry.key = true ∧ e.valueEnd ≤ actualValueEnd

instance (actualValueEnd : Nat) (e : OffsetEntry) : Decidable (BringsBack actualValueEnd e) :=
  inferInstanceAs (Decidable (_ ∧ _))

/-- A part of the entry is learned as an entry of its own. -/
def LearnsPrefix (last : RevertEntries) (actualValueEnd : Nat) (e : OffsetEntry) : Prop :=
  isValidUtf8 e.entry.value = true ∧ isValidUtf8 e.entry.key = true ∧
    actualValueEnd < e.valueEnd ∧ e.valueBegin < actualValueEnd ∧
    (prefixEntry words last actualValueEnd e).key ≠ [] ∧
    (prefixEntry words last actualValueEnd e).value ≠ []

instance (last : RevertEntries) (actualValueEnd : Nat) (e : OffsetEntry) :
    Decidable (LearnsPrefix words last actualValueEnd e) :=
  inferInstanceAs (Decidable (_ ∧ _))

/-- The entries that are brought back where the value ends at `actualValueEnd`. -/
def broughtBack (actualValueEnd : Nat) (entries : List OffsetEntry) : List Entry :=
  (entries.filter fun e => 0 < actualValueEnd ∧ BringsBack actualValueEnd e).map OffsetEntry.entry

end specs

variable {words : Words} {dic dic' : Dic} {fp : UInt64} {e : OffsetEntry} {last : RevertEntries}
  {actualValueEnd : Nat}

theorem modify_of_lookup_none {f : Entry → Entry} (h : RecencyList.lookup dic fp = none) :
    dic.modify fp f = dic := by
  rw [RecencyList.lookup, Option.map_eq_none_iff, List.find?_eq_none] at h
  rw [Dic.modify]
  refine (List.map_congr_left fun x hx => ?_).trans (List.map_id dic)
  exact if_neg (of_decide_eq_false (Bool.eq_false_of_not_eq_true (h x hx)))

theorem foldl_revertEntry (entries : List OffsetEntry) (dic : Dic) (acc : List OffsetEntry) :
    entries.foldl (revertEntry words) (dic, acc) =
      ((entries.map OffsetEntry.entry).foldl (Prediction.revertEntry words.toWords) dic,
        acc ++ snapshots words entries dic) := by
  induction entries generalizing dic acc with
  | nil => simp [snapshots]
  | cons e entries ih =>
    rw [List.foldl_cons, List.map_cons, List.foldl_cons, revertEntry, snapshots]
    dsimp only
    split
    · rename_i hnone
      rw [ih, Prediction.revertEntry, modify_of_lookup_none hnone, hnone]
      rfl
    · rename_i committed hsome
      rw [ih, Prediction.revertEntry, hsome, Option.toList_some, List.map_singleton,
        List.append_assoc]

theorem revertHistoryEntry_eq (historyEntry : Option Entry) (dic : Dic) :
    revertHistoryEntry words dic historyEntry =
      (historyEntry.elim dic (Prediction.revertEntry words.toWords dic),
        historyEntry.bind fun entry =>
          RecencyList.lookup dic (entry.fp words.cityFingerprint)) := by
  cases historyEntry with
  | none => rfl
  | some entry =>
    rw [revertHistoryEntry]
    split
    · rename_i hnone
      rw [Option.elim_some, Prediction.revertEntry, modify_of_lookup_none hnone, Option.bind_some,
        hnone]
    · rename_i committed hsome
      rw [Option.bind_some, hsome]
      rfl

theorem revert_eq {s : State} {revertId : UInt32} {revertEntries : RevertEntries}
    (hcache : s.revertCache revertId = some revertEntries) :
    revert words false revertId s =
      { s with dic := applyRevert words.toWords revertEntries.written s.dic
               lastCommittedEntries := some (revertEntries.committed words s.dic) } := by
  rw [revert, if_neg Bool.false_ne_true, hcache]
  dsimp only
  rw [foldl_revertEntry, revertHistoryEntry_eq]
  rfl

theorem redoEntry_of_bringsBack (h : BringsBack actualValueEnd e) :
    redoEntry words last actualValueEnd dic e = insertEntry words e.entry dic := by
  obtain ⟨hvalue, hkey, hend⟩ := h
  simp [redoEntry, hvalue, hkey, hend]

theorem redoEntry_of_learnsPrefix (h : LearnsPrefix words last actualValueEnd e) :
    redoEntry words last actualValueEnd dic e =
      updateChain words last e.keyBegin (prefixEntry words last actualValueEnd e)
        (forceInsertEntry words (prefixEntry words last actualValueEnd e) dic) := by
  obtain ⟨hvalue, hkey, hend, hbegin, hpart⟩ := h
  simp [redoEntry, hvalue, hkey, Nat.not_le_of_lt hend, hbegin, hpart]

theorem redoEntry_of_not (hno : ¬ BringsBack actualValueEnd e)
    (hnone : ¬ LearnsPrefix words last actualValueEnd e) :
    redoEntry words last actualValueEnd dic e = dic := by
  rw [redoEntry]
  split
  · rfl
  rename_i hvalid
  rw [not_or, not_not, not_not] at hvalid
  split
  · rename_i hend
    exact absurd ⟨hvalid.1, hvalid.2, hend⟩ hno
  rename_i hend
  split
  · rename_i hbegin
    refine if_neg fun hpart => hnone ?_
    exact ⟨hvalid.1, hvalid.2, Nat.lt_of_not_le hend, hbegin, hpart⟩
  · rfl

theorem foldl_redoEntry {entries : List OffsetEntry} (hpos : 0 < actualValueEnd)
    (hnone : ∀ e ∈ entries, ¬ LearnsPrefix words last actualValueEnd e) (dic : Dic) :
    entries.foldl (redoEntry words last actualValueEnd) dic =
      (broughtBack actualValueEnd entries).foldl (Prediction.revertEntry words.toWords) dic := by
  induction entries generalizing dic with
  | nil => rfl
  | cons e entries ih =>
    have hentries := fun e he => hnone e (List.mem_cons_of_mem _ he)
    rw [List.foldl_cons, ih hentries]
    conv_rhs => rw [broughtBack, List.filter_cons]
    by_cases hback : BringsBack actualValueEnd e
    · rw [redoEntry_of_bringsBack hback, if_pos (decide_eq_true ⟨hpos, hback⟩), List.map_cons,
        List.foldl_cons]
      rfl
    · rw [redoEntry_of_not hback (hnone e List.mem_cons_self),
        if_neg (fun h => hback (of_decide_eq_true h).2)]
      rfl

theorem broughtBack_zero (entries : List OffsetEntry) : broughtBack 0 entries = [] := by
  simp [broughtBack]

theorem dic_redo {s : State} {revertId : UInt32} {revertEntries : RevertEntries}
    {precedingText : Bytes} (hcache : s.revertCache revertId = some revertEntries)
    (hactual : guessRevertedValueOffset revertEntries.result.value precedingText = actualValueEnd)
    (hnone : ∀ e ∈ snapshots words revertEntries.entries s.dic,
      ¬ LearnsPrefix words (revertEntries.committed words s.dic) actualValueEnd e) :
    (maybeProcessPartialRevertEntry words precedingText (revert words false revertId s)).dic =
      (broughtBack actualValueEnd (snapshots words revertEntries.entries s.dic)).foldl
        (Prediction.revertEntry words.toWords)
        (applyRevert words.toWords revertEntries.written s.dic) := by
  rw [revert_eq hcache, maybeProcessPartialRevertEntry]
  have hvalue : guessRevertedValueOffset (revertEntries.committed words s.dic).result.value
      precedingText = actualValueEnd := hactual
  dsimp only
  rw [hvalue]
  split
  · rename_i hzero
    rw [hzero, broughtBack_zero]
    rfl
  · rename_i hpos
    exact foldl_redoEntry (Nat.pos_of_ne_zero hpos) hnone _

theorem keys_foldl_revertEntry (entries : List Entry) (dic : Dic) :
    (entries.foldl (Prediction.revertEntry words.toWords) dic).map Prod.fst = dic.map Prod.fst := by
  induction entries generalizing dic with
  | nil => rfl
  | cons e entries ih => rw [List.foldl_cons, ih, Prediction.revertEntry, keys_modify]

theorem keys_applyRevert (revertEntries : Prediction.RevertEntries) (dic : Dic) :
    (applyRevert words.toWords revertEntries dic).map Prod.fst = dic.map Prod.fst := by
  rw [applyRevert]
  cases revertEntries.historyEntry with
  | none => exact keys_foldl_revertEntry _ _
  | some entry =>
    rw [Option.elim_some, Prediction.revertEntry, keys_modify]
    exact keys_foldl_revertEntry _ _

theorem eq_of_lookup (hkeys : dic.map Prod.fst = dic'.map Prod.fst) (hnodup : (dic.map Prod.fst).Nodup)
    (hlookup : ∀ fp, RecencyList.lookup dic fp = RecencyList.lookup dic' fp) : dic = dic' := by
  induction dic generalizing dic' with
  | nil => exact (List.map_eq_nil_iff.mp hkeys.symm).symm
  | cons x dic ih =>
    obtain ⟨y, dic', rfl, hfst, htail⟩ := List.map_eq_cons_iff.mp hkeys.symm
    rw [List.map_cons, List.nodup_cons] at hnodup
    have hsnd := hlookup x.1
    rw [RecencyList.lookup_cons, RecencyList.lookup_cons, if_pos rfl, if_pos hfst.symm] at hsnd
    rw [Prod.ext hfst.symm (Option.some.inj hsnd), ih htail.symm hnodup.2 fun fp => ?_]
    have hcons := hlookup fp
    rw [RecencyList.lookup_cons, RecencyList.lookup_cons, hfst] at hcons
    by_cases hfp : fp = x.1
    · have habsent : ∀ {dic : Dic}, x.1 ∉ dic.map Prod.fst → RecencyList.lookup dic x.1 = none := by
        intro dic habsent
        by_contra hne
        obtain ⟨entry, hentry⟩ := Option.ne_none_iff_exists'.mp hne
        exact habsent (List.mem_map.mpr ⟨_, mem_keys_of_lookup hentry, rfl⟩)
      rw [hfp, habsent hnodup.1, habsent (htail ▸ hnodup.1)]
    · rwa [if_neg hfp, if_neg hfp] at hcons

theorem lookup_foldl_revertEntry (entries : List Entry) (dic : Dic) :
    RecencyList.lookup (entries.foldl (Prediction.revertEntry words.toWords) dic) fp =
      (RecencyList.lookup dic fp).map fun entry =>
        (lastWrite words.toWords fp entries).getD entry := by
  have h := @lookup_applyRevert words.toWords dic fp { entries }
  rw [applyRevert, written] at h
  simpa using h

/-- The recorded entries of one word, each as the word stands when `Revert` comes to it: the committed
entry for the first one, and the entry recorded before it for any other. -/
def standing : List OffsetEntry → Entry → List OffsetEntry
  | [], _ => []
  | e :: recorded, committed => { e with entry := committed } :: standing recorded e.entry

/-- Under each fingerprint, what is brought back last is the committed entry, or nothing is and
`Revert` writes nothing else. -/
def Restorable (words : Words) (actualValueEnd : Nat) (revertEntries : RevertEntries) (dic : Dic) :
    Prop :=
  ∀ fp committed, RecencyList.lookup dic fp = some committed →
    ∀ entry ∈ (broughtBack actualValueEnd (standing (revertEntries.entries.filter fun e =>
        e.entry.fp words.cityFingerprint = fp) committed)).getLast?.or
      (written words.toWords fp revertEntries.written), entry = committed

theorem filter_snapshots
    (hkeyed : ∀ fp entry, RecencyList.lookup dic fp = some entry →
      entry.fp words.cityFingerprint = fp) (entries : List OffsetEntry) (fp : UInt64) :
    (snapshots words entries dic).filter (fun e => e.entry.fp words.cityFingerprint = fp) =
      ((RecencyList.lookup dic fp).map (standing (entries.filter fun e =>
        e.entry.fp words.cityFingerprint = fp))).getD [] := by
  induction entries generalizing dic with
  | nil => cases RecencyList.lookup dic fp <;> rfl
  | cons e entries ih =>
    have hmodified : ∀ fp' entry, RecencyList.lookup
        (dic.modify (e.entry.fp words.cityFingerprint) fun _ => e.entry) fp' = some entry →
        entry.fp words.cityFingerprint = fp' := by
      intro fp' entry hentry
      rw [lookup_modify] at hentry
      split at hentry
      · rename_i heq
        obtain ⟨-, -, rfl⟩ := Option.map_eq_some_iff.mp hentry
        exact heq.symm
      · exact hkeyed fp' entry hentry
    rw [snapshots, List.filter_append, ih hmodified, lookup_modify, List.filter_cons]
    by_cases heq : e.entry.fp words.cityFingerprint = fp
    · rw [if_pos heq.symm, if_pos (decide_eq_true heq), heq]
      cases hlookup : RecencyList.lookup dic fp with
      | none => rfl
      | some committed =>
        have hcommitted := hkeyed fp committed hlookup
        simp [standing, hcommitted]
    · rw [if_neg (Ne.symm heq), if_neg (by simpa using heq)]
      cases hlookup : RecencyList.lookup dic (e.entry.fp words.cityFingerprint) with
      | none => rfl
      | some committed =>
        have hcommitted := hkeyed _ committed hlookup
        simp [hcommitted, heq]

theorem lastWrite_broughtBack
    (hkeyed : ∀ fp entry, RecencyList.lookup dic fp = some entry →
      entry.fp words.cityFingerprint = fp) (entries : List OffsetEntry) {committed : Entry}
    (hcommitted : RecencyList.lookup dic fp = some committed) :
    lastWrite words.toWords fp (broughtBack actualValueEnd (snapshots words entries dic)) =
      (broughtBack actualValueEnd (standing (entries.filter fun e =>
        e.entry.fp words.cityFingerprint = fp) committed)).getLast? := by
  have hfilter := filter_snapshots hkeyed entries fp
  rw [hcommitted, Option.map_some, Option.getD_some] at hfilter
  rw [← hfilter, lastWrite, broughtBack, broughtBack, List.filter_map, List.filter_filter,
    List.filter_filter]
  refine congrArg (fun entries => (List.map OffsetEntry.entry entries).getLast?) ?_
  exact List.filter_congr fun e _ => Bool.and_comm _ _

theorem restorable_of_forall {revertEntries : RevertEntries}
    (h : ∀ x ∈ dic, ∀ entry ∈ (broughtBack actualValueEnd
        (standing (revertEntries.entries.filter fun e =>
          e.entry.fp words.cityFingerprint = x.1) x.2)).getLast?.or
      (written words.toWords x.1 revertEntries.written), entry = x.2) :
    Restorable words actualValueEnd revertEntries dic :=
  fun fp committed hcommitted => h (fp, committed) (mem_keys_of_lookup hcommitted)

theorem redo_eq_iff {s : State} {revertId : UInt32} {revertEntries : RevertEntries}
    {precedingText : Bytes} (hkeyed : Keyed words.cityFingerprint s.dic)
    (hcache : s.revertCache revertId = some revertEntries)
    (hactual : guessRevertedValueOffset revertEntries.result.value precedingText = actualValueEnd)
    (hnone : ∀ e ∈ snapshots words revertEntries.entries s.dic,
      ¬ LearnsPrefix words (revertEntries.committed words s.dic) actualValueEnd e) :
    (maybeProcessPartialRevertEntry words precedingText (revert words false revertId s)).dic = s.dic ↔
      Restorable words actualValueEnd revertEntries s.dic := by
  rw [dic_redo hcache hactual hnone]
  have hlookup : ∀ fp, RecencyList.lookup
      ((broughtBack actualValueEnd (snapshots words revertEntries.entries s.dic)).foldl
        (Prediction.revertEntry words.toWords)
        (applyRevert words.toWords revertEntries.written s.dic)) fp =
      (RecencyList.lookup s.dic fp).map fun entry =>
        ((lastWrite words.toWords fp
          (broughtBack actualValueEnd (snapshots words revertEntries.entries s.dic))).or
          (written words.toWords fp revertEntries.written)).getD entry := by
    intro fp
    rw [lookup_foldl_revertEntry, lookup_applyRevert, Option.map_map]
    congr 1
    funext entry
    cases lastWrite words.toWords fp
      (broughtBack actualValueEnd (snapshots words revertEntries.entries s.dic)) <;> rfl
  constructor
  · intro heq fp committed hcommitted entry hentry
    have h := hlookup fp
    rw [heq, hcommitted, Option.map_some, lastWrite_broughtBack hkeyed.fp_eq _ hcommitted, hentry] at h
    exact (Option.some.inj h).symm
  · intro hrestorable
    have hkeys := (@keys_foldl_revertEntry words
      (broughtBack actualValueEnd (snapshots words revertEntries.entries s.dic)) _).trans
      (@keys_applyRevert words revertEntries.written s.dic)
    refine eq_of_lookup hkeys (hkeys ▸ hkeyed.nodup) fun fp => ?_
    rw [hlookup]
    cases hcommitted : RecencyList.lookup s.dic fp with
    | none => rfl
    | some committed =>
      have h := hrestorable fp committed hcommitted
      rw [Option.map_some, lastWrite_broughtBack hkeyed.fp_eq _ hcommitted]
      cases hwritten : (broughtBack actualValueEnd (standing (revertEntries.entries.filter fun e =>
          e.entry.fp words.cityFingerprint = fp) committed)).getLast?.or
          (written words.toWords fp revertEntries.written) with
      | none => rfl
      | some entry => rw [Option.getD_some, h entry hwritten]

/-- What is stored under `fp` afterwards was stored there before, up to its links. -/
def Inactive (fp : UInt64) (dic dic' : Dic) : Prop :=
  ∀ entry', RecencyList.lookup dic' fp = some entry' → ∃ entry,
    RecencyList.lookup dic fp = some entry ∧
      entry' = { entry with nextEntryFps := entry'.nextEntryFps }

theorem Inactive.refl (fp : UInt64) (dic : Dic) : Inactive fp dic dic :=
  fun entry' h => ⟨entry', h, rfl⟩

theorem Inactive.trans {dic₁ dic₂ dic₃ : Dic} (h : Inactive fp dic₁ dic₂) (h' : Inactive fp dic₂ dic₃) :
    Inactive fp dic₁ dic₃ := by
  intro entry₃ hentry₃
  obtain ⟨entry₂, hentry₂, heq'⟩ := h' entry₃ hentry₃
  obtain ⟨entry₁, hentry₁, heq⟩ := h entry₂ hentry₂
  refine ⟨entry₁, hentry₁, ?_⟩
  rw [heq', heq]

theorem inactive_modify_of_ne {f : Entry → Entry} {key : UInt64} (hne : fp ≠ key) :
    Inactive fp dic (dic.modify key f) := by
  intro entry' hentry'
  rw [lookup_modify, if_neg hne] at hentry'
  exact ⟨entry', hentry', rfl⟩

theorem inactive_updateChain (keyBegin : Nat) (newEntry : Entry) :
    Inactive fp dic (updateChain words last keyBegin newEntry dic) := by
  rw [updateChain]
  split
  · exact .refl fp dic
  · intro entry' hentry'
    rw [lookup_modify] at hentry'
    split at hentry'
    · obtain ⟨entry, hentry, rfl⟩ := Option.map_eq_some_iff.mp hentry'
      refine ⟨entry, hentry, ?_⟩
      rw [insertNextEntry]
      split <;> rfl
    · exact ⟨entry', hentry', rfl⟩

theorem inactive_forceInsertEntry {newEntry : Entry} (hne : newEntry.fp words.cityFingerprint ≠ fp) :
    Inactive fp dic (forceInsertEntry words newEntry dic) := by
  intro entry' hentry'
  rcases lookup_insert_cases hentry' with ⟨heq, -⟩ | ⟨-, hentry'⟩
  · exact absurd heq.symm hne
  · exact ⟨entry', hentry', rfl⟩

theorem inactive_redoEntry
    (hback : BringsBack actualValueEnd e → e.entry.fp words.cityFingerprint ≠ fp)
    (hpart : LearnsPrefix words last actualValueEnd e →
      (prefixEntry words last actualValueEnd e).fp words.cityFingerprint ≠ fp) :
    Inactive fp dic (redoEntry words last actualValueEnd dic e) := by
  by_cases hbrings : BringsBack actualValueEnd e
  · rw [redoEntry_of_bringsBack hbrings, insertEntry]
    exact inactive_modify_of_ne (hback hbrings).symm
  · by_cases hlearns : LearnsPrefix words last actualValueEnd e
    · rw [redoEntry_of_learnsPrefix hlearns]
      exact (inactive_forceInsertEntry (hpart hlearns)).trans (inactive_updateChain _ _)
    · rw [redoEntry_of_not hbrings hlearns]
      exact .refl fp dic

theorem inactive_foldl {entries : List OffsetEntry}
    (hback : ∀ e ∈ entries, BringsBack actualValueEnd e → e.entry.fp words.cityFingerprint ≠ fp)
    (hpart : ∀ e ∈ entries, LearnsPrefix words last actualValueEnd e →
      (prefixEntry words last actualValueEnd e).fp words.cityFingerprint ≠ fp) :
    Inactive fp dic (entries.foldl (redoEntry words last actualValueEnd) dic) := by
  induction entries generalizing dic with
  | nil => exact .refl fp dic
  | cons e entries ih =>
    have hstep := @inactive_redoEntry words dic fp e last actualValueEnd
      (hback e List.mem_cons_self) (hpart e List.mem_cons_self)
    exact hstep.trans (ih (fun e he => hback e (List.mem_cons_of_mem _ he))
      (fun e he => hpart e (List.mem_cons_of_mem _ he)))

/-- No entry that reaches beyond the remaining value stands where another one is brought back or a
part of one is learned. -/
def StandsApart (words : Words) (last : RevertEntries) (actualValueEnd : Nat) : Prop :=
  ∀ beyond ∈ last.entries, actualValueEnd < beyond.valueEnd → ∀ e ∈ last.entries,
    (BringsBack actualValueEnd e →
      e.entry.fp words.cityFingerprint ≠ beyond.entry.fp words.cityFingerprint) ∧
    (LearnsPrefix words last actualValueEnd e →
      (prefixEntry words last actualValueEnd e).fp words.cityFingerprint ≠
        beyond.entry.fp words.cityFingerprint)

/-- No entry that reaches beyond the remaining value is active again. -/
def NoneReactivated (words : Words) (last : RevertEntries) (actualValueEnd : Nat) (dic dic' : Dic) :
    Prop :=
  ∀ beyond ∈ last.entries, actualValueEnd < beyond.valueEnd →
    Inactive (beyond.entry.fp words.cityFingerprint) dic dic'

theorem noneReactivated_of_standsApart {s : State} {revertId : UInt32}
    {revertEntries : RevertEntries} {precedingText : Bytes}
    (hcache : s.revertCache revertId = some revertEntries)
    (hactual : guessRevertedValueOffset revertEntries.result.value precedingText = actualValueEnd)
    (hapart : StandsApart words (revertEntries.committed words s.dic) actualValueEnd) :
    NoneReactivated words (revertEntries.committed words s.dic) actualValueEnd
      (revert words false revertId s).dic
      (maybeProcessPartialRevertEntry words precedingText (revert words false revertId s)).dic := by
  intro beyond hbeyond hend
  have hvalue : guessRevertedValueOffset (revertEntries.committed words s.dic).result.value
      precedingText = actualValueEnd := hactual
  rw [revert_eq hcache, maybeProcessPartialRevertEntry]
  dsimp only
  rw [hvalue]
  split
  · exact .refl _ _
  · exact inactive_foldl (fun e he => (hapart beyond hbeyond hend e he).1)
      (fun e he => (hapart beyond hbeyond hend e he).2)

def hiraganaWords : Words :=
  { summedWords with isHiragana := fun _ => true, readingAlignment := fun _ _ => [] }

/-- What a commit of one segment `b` leaves, with or without the segment `a` in front of it. -/
def committedState (historySegments : List SegmentForLearning) : State :=
  let learned := insertHistory summedWords 5
    { conversionSegmentsKey := [0x62], conversionSegmentsValue := [0x42], innerSegmentBoundary := [],
      historySegments, conversionSegments := [⟨[0x62], [0x42], [0x62], [0x42], []⟩],
      hasSpacePrefix := false, allowPartialMatch := false }
    { dic := [(fingerprint byteSum [0x61] [0x41], { key := [0x61], value := [0x41] })] }
  { dic := learned.dic
    revertCache := fun _ => some
      { result := { key := [0x62], value := [0x42] }
        historyEntry := learned.revertEntries.historyEntry
        entries := learned.revertEntries.entries.map fun entry => { entry } } }

end Mozkey.Prediction.Redo
