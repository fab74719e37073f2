import Mozkey.Prediction.UserHistoryClearCorrect
import Mozkey.Prediction.UserHistoryLearning

/-! When `Revert` undoes the `Finish` just before it: a commit is followed at one fingerprint, where
every insertion and every shown result changes the entry and its last snapshot. -/

namespace Mozkey.Prediction

open Storage Base

/-- The entries of a storage stand under their own fingerprints, each once, and only under some. -/
structure Stored (words : Words) (allowed : Finset UInt64) (dic : Dic) : Prop where
  nodup : (dic.map Prod.fst).Nodup
  fp_eq : ∀ fp entry, RecencyList.lookup dic fp = some entry → entry.fp words.cityFingerprint = fp
  allowed : ∀ fp ∈ dic.map Prod.fst, fp ∈ allowed

section views

variable (words : Words) (fp : UInt64)

def lastWrite (entries : List Entry) : Option Entry :=
  (entries.filter fun entry => entry.fp words.cityFingerprint = fp).getLast?

def written (revertEntries : RevertEntries) : Option Entry :=
  (revertEntries.historyEntry.filter fun entry => entry.fp words.cityFingerprint = fp).or
    (lastWrite words fp revertEntries.entries)

def Learning.view (s : Learning) : Option Entry × Option Entry :=
  (RecencyList.lookup s.dic fp, lastWrite words fp s.revertEntries.entries)

def insertView (view : Option Entry × Option Entry) (args : InsertArgs) :
    Option Entry × Option Entry :=
  (some (args.learn (view.1.getD {})), some (view.1.getD args.absent))

def showView : Option Entry × Option Entry → Option Entry × Option Entry
  | (none, last) => (none, last)
  | (some entry, last) =>
    if selectedRatioIsLow entry.suggestionFreq (entry.shownFreq + 1) then
      (some entry.remove, some entry)
    else (some { entry with shownFreq := entry.shownFreq + 1 }, last)

def hits (inserts : List InsertArgs) : List InsertArgs :=
  inserts.filter fun args => args.IsLearned words ∧ args.fp words = fp

def timesShown (results : List Result) : Nat :=
  ((results.take kMaxHistorySize).filter fun result => result.fp words = fp).length

end views

section lookups

variable {words : Words} {allowed : Finset UInt64} {dic : Dic} {s : Learning} {fp : UInt64}
  {args : InsertArgs}

theorem hits_append (inserts inserts' : List InsertArgs) :
    hits words fp (inserts ++ inserts') = hits words fp inserts ++ hits words fp inserts' :=
  List.filter_append _ _

theorem lastWrite_concat (entries : List Entry) (entry : Entry) :
    lastWrite words fp (entries ++ [entry]) =
      if entry.fp words.cityFingerprint = fp then some entry else lastWrite words fp entries := by
  rw [lastWrite, List.filter_append, List.filter_singleton]
  by_cases h : entry.fp words.cityFingerprint = fp
  · rw [if_pos h, decide_eq_true h]
    exact List.getLast?_concat
  · rw [if_neg h, decide_eq_false h]
    exact congrArg List.getLast? (List.append_nil _)

theorem foldl_insertNextEntry (fps : List UInt64) (entry : Entry) :
    ∃ nextEntryFps, fps.foldl (fun entry fp => insertNextEntry fp entry) entry =
      { entry with nextEntryFps } := by
  induction fps generalizing entry with
  | nil => exact ⟨entry.nextEntryFps, rfl⟩
  | cons fp fps ih =>
    rw [List.foldl_cons]
    obtain ⟨nextEntryFps, h⟩ := ih (insertNextEntry fp entry)
    refine ⟨nextEntryFps, h.trans ?_⟩
    rw [insertNextEntry]
    split <;> rfl

theorem InsertArgs.learn_eq (args : InsertArgs) (entry : Entry) :
    ∃ nextEntryFps, args.learn entry =
      { entry with
        key := args.strip.key
        value := args.strip.value
        removed := false
        attributes := 0
        allowPartialMatch := args.allowPartialMatch || entry.allowPartialMatch
        description := args.description
        innerSegmentBoundary :=
          if args.innerSegmentBoundary = [] then entry.innerSegmentBoundary
          else args.innerSegmentBoundary
        lastAccessTime := args.lastAccessTime
        suggestionFreq := entry.suggestionFreq + 1
        nextEntryFps := nextEntryFps } :=
  foldl_insertNextEntry args.nextFps _

theorem InsertArgs.learn_spec (args : InsertArgs) (entry : Entry) :
    (args.learn entry).suggestionFreq = entry.suggestionFreq + 1 ∧
      (args.learn entry).shownFreq = entry.shownFreq ∧ (args.learn entry).removed = false ∧
      (args.learn entry).key = args.strip.key ∧ (args.learn entry).value = args.strip.value := by
  obtain ⟨nextEntryFps, h⟩ := args.learn_eq entry
  rw [h]
  exact ⟨rfl, rfl, rfl, rfl, rfl⟩

theorem InsertArgs.fp_learn (args : InsertArgs) (entry : Entry) :
    (args.learn entry).fp words.cityFingerprint = args.fp words := by
  obtain ⟨-, -, -, hkey, hvalue⟩ := args.learn_spec entry
  rw [Entry.fp, hkey, hvalue, InsertArgs.fp]

theorem Stored.lookup_insert (h : Stored words allowed dic) (hroom : allowed.card ≤ kLruCacheSize)
    {key : UInt64} (hkey : key ∈ allowed) (entry : Entry) :
    RecencyList.lookup (RecencyList.insert dic kLruCacheSize key entry) fp =
      if fp = key then some entry else RecencyList.lookup dic fp := by
  have hlt : (RecencyList.erase dic key).length < kLruCacheSize := by
    have hsub : ((RecencyList.erase dic key).map Prod.fst).toFinset ⊆ allowed.erase key := by
      intro k hk
      have hk' := List.mem_toFinset.mp hk
      refine Finset.mem_erase.mpr ⟨?_, ?_⟩
      · rintro rfl
        exact RecencyList.notMem_erase hk'
      · exact h.allowed k ((List.filter_sublist.map Prod.fst).mem hk')
    have hcard := Finset.card_le_card hsub
    rw [List.toFinset_card_of_nodup (RecencyList.nodup_erase h.nodup), List.length_map,
      Finset.card_erase_of_mem hkey] at hcard
    have hpos := Finset.card_pos.mpr ⟨key, hkey⟩
    omega
  rw [RecencyList.lookup_insert h.nodup, RecencyList.dropped, if_pos hlt,
    if_neg (Option.some_ne_none fp).symm]

theorem Stored.insert (h : Stored words allowed dic) (hroom : allowed.card ≤ kLruCacheSize)
    {key : UInt64} (hkey : key ∈ allowed) {entry : Entry}
    (hentry : entry.fp words.cityFingerprint = key) :
    Stored words allowed (RecencyList.insert dic kLruCacheSize key entry) where
  nodup := RecencyList.nodup_step h.nodup (.insert key entry)
  fp_eq fp' entry' he := by
    rw [h.lookup_insert hroom hkey] at he
    split at he
    · rename_i heq
      rw [← Option.some.inj he, heq, hentry]
    · exact h.fp_eq fp' entry' he
  allowed fp' hfp := by
    have hsome := lookup_isSome_iff.mpr hfp
    rw [h.lookup_insert hroom hkey] at hsome
    split at hsome
    · rename_i heq
      exact heq ▸ hkey
    · exact h.allowed fp' (lookup_isSome_iff.mp hsome)

theorem Stored.modify (h : Stored words allowed dic) {key : UInt64} {f : Entry → Entry}
    (hf : ∀ entry, RecencyList.lookup dic key = some entry →
      (f entry).fp words.cityFingerprint = key) : Stored words allowed (dic.modify key f) where
  nodup := by
    rw [keys_modify]
    exact h.nodup
  fp_eq fp' entry he := by
    rw [lookup_modify] at he
    split at he
    · rename_i heq
      obtain ⟨entry', he', rfl⟩ := Option.map_eq_some_iff.mp he
      rw [heq] at he' ⊢
      exact hf entry' he'
    · exact h.fp_eq fp' entry he
  allowed fp' hfp := by
    rw [keys_modify] at hfp
    exact h.allowed fp' hfp

theorem insert_view (h : Stored words allowed s.dic) (hroom : allowed.card ≤ kLruCacheSize)
    (hargs : args.IsLearned words → args.fp words ∈ allowed) :
    Stored words allowed (insert words s args).dic ∧
      (insert words s args).revertEntries.historyEntry = s.revertEntries.historyEntry ∧
      (insert words s args).view words fp =
        (hits words fp [args]).foldl insertView (s.view words fp) := by
  rw [Mozkey.Prediction.insert, hits]
  by_cases hlearned : args.IsLearned words
  swap
  · rw [if_neg hlearned, List.filter_cons_of_neg (by simp [hlearned])]
    exact ⟨h, rfl, rfl⟩
  rw [if_pos hlearned]
  refine ⟨h.insert hroom (hargs hlearned) (args.fp_learn _), rfl, ?_⟩
  dsimp only [Learning.view]
  rw [lastWrite_concat, h.lookup_insert hroom (hargs hlearned)]
  have hfp : ((RecencyList.lookup s.dic (args.fp words)).getD args.absent).fp words.cityFingerprint =
      args.fp words := by
    cases hentry : RecencyList.lookup s.dic (args.fp words) with
    | none => rfl
    | some entry => exact h.fp_eq _ _ hentry
  rw [hfp]
  by_cases heq : args.fp words = fp
  · rw [if_pos heq.symm, if_pos heq, List.filter_cons_of_pos (by simp [hlearned, heq]), heq]
    rfl
  · rw [if_neg (Ne.symm heq), if_neg heq, List.filter_cons_of_neg (by simp [heq])]
    rfl

theorem foldl_insert_view (h : Stored words allowed s.dic) (hroom : allowed.card ≤ kLruCacheSize)
    {inserts : List InsertArgs}
    (hinserts : ∀ args ∈ inserts, args.IsLearned words → args.fp words ∈ allowed) :
    Stored words allowed (inserts.foldl (insert words) s).dic ∧
      (inserts.foldl (insert words) s).revertEntries.historyEntry = s.revertEntries.historyEntry ∧
      (inserts.foldl (insert words) s).view words fp =
        (hits words fp inserts).foldl insertView (s.view words fp) := by
  induction inserts generalizing s with
  | nil => exact ⟨h, rfl, rfl⟩
  | cons args inserts ih =>
    obtain ⟨hargs, hinserts⟩ := List.forall_mem_cons.mp hinserts
    obtain ⟨hstored, hhistory, hview⟩ := @insert_view words allowed s fp args h hroom hargs
    obtain ⟨hstored', hhistory', hview'⟩ := ih hstored hinserts
    refine ⟨hstored', hhistory'.trans hhistory, ?_⟩
    have hsplit : hits words fp (args :: inserts) = hits words fp [args] ++ hits words fp inserts :=
      hits_append [args] inserts
    rw [List.foldl_cons, hview', hview, hsplit, List.foldl_append]

theorem showResult_some {result : Result} {entry : Entry}
    (hentry : RecencyList.lookup s.dic (result.fp words) = some entry) :
    showResult words s result =
      if selectedRatioIsLow entry.suggestionFreq (entry.shownFreq + 1) then
        { dic := s.dic.modify (result.fp words) fun _ => entry.remove
          revertEntries := { s.revertEntries with entries := s.revertEntries.entries ++ [entry] } }
      else
        { s with
          dic := s.dic.modify (result.fp words) fun _ =>
            { entry with shownFreq := entry.shownFreq + 1 } } := by
  rw [showResult]
  dsimp only
  rw [hentry]
  rfl

theorem showResult_view (h : Stored words allowed s.dic) (result : Result) :
    Stored words allowed (showResult words s result).dic ∧
      (showResult words s result).revertEntries.historyEntry = s.revertEntries.historyEntry ∧
      (showResult words s result).view words fp =
        if result.fp words = fp then showView (s.view words fp) else s.view words fp := by
  cases hentry : RecencyList.lookup s.dic (result.fp words) with
  | none =>
    rw [showResult]
    dsimp only
    rw [hentry]
    refine ⟨h, rfl, ?_⟩
    by_cases heq : result.fp words = fp
    · rw [heq] at hentry
      rw [if_pos heq, Learning.view, hentry]
      rfl
    · rw [if_neg heq]
  | some entry =>
    have hfp := h.fp_eq _ _ hentry
    rw [showResult_some hentry]
    by_cases hlow : selectedRatioIsLow entry.suggestionFreq (entry.shownFreq + 1) = true
    · rw [if_pos hlow]
      refine ⟨h.modify (f := fun _ => entry.remove) fun _ _ => hfp, rfl, ?_⟩
      dsimp only [Learning.view]
      rw [lastWrite_concat, lookup_modify]
      by_cases heq : result.fp words = fp
      · rw [if_pos heq.symm, if_pos (hfp.trans heq), if_pos heq, ← heq, hentry]
        dsimp only [showView]
        rw [if_pos hlow]
        rfl
      · rw [if_neg (Ne.symm heq), if_neg (fun hcon => heq (hfp.symm.trans hcon)), if_neg heq]
    · rw [if_neg hlow]
      have hshown : Stored words allowed (s.dic.modify (result.fp words) fun _ =>
          { entry with shownFreq := entry.shownFreq + 1 }) := h.modify fun _ _ => hfp
      refine ⟨hshown, rfl, ?_⟩
      dsimp only [Learning.view]
      rw [lookup_modify]
      by_cases heq : result.fp words = fp
      · rw [if_pos heq.symm, if_pos heq, ← heq, hentry]
        dsimp only [showView]
        rw [if_neg hlow]
        rfl
      · rw [if_neg (Ne.symm heq), if_neg heq]

theorem foldl_showResult_view (h : Stored words allowed s.dic) (results : List Result) :
    Stored words allowed (results.foldl (showResult words) s).dic ∧
      (results.foldl (showResult words) s).revertEntries.historyEntry =
        s.revertEntries.historyEntry ∧
      (results.foldl (showResult words) s).view words fp =
        showView^[(results.filter fun result => result.fp words = fp).length] (s.view words fp) := by
  induction results generalizing s with
  | nil => exact ⟨h, rfl, rfl⟩
  | cons result results ih =>
    obtain ⟨hstored, hhistory, hview⟩ := @showResult_view words allowed s fp h result
    obtain ⟨hstored', hhistory', hview'⟩ := ih hstored
    refine ⟨hstored', hhistory'.trans hhistory, ?_⟩
    rw [List.foldl_cons, hview', hview, List.filter_cons]
    by_cases heq : result.fp words = fp
    · rw [if_pos heq, if_pos (decide_eq_true heq), List.length_cons, Function.iterate_succ_apply]
    · rw [if_neg heq, if_neg (by simpa using heq)]

theorem lookup_applyRevert (revertEntries : RevertEntries) :
    RecencyList.lookup (applyRevert words revertEntries dic) fp =
      (RecencyList.lookup dic fp).map fun entry => (written words fp revertEntries).getD entry := by
  have hwrite : ∀ (dic : Dic) (entry : Entry), RecencyList.lookup (revertEntry words dic entry) fp =
      (RecencyList.lookup dic fp).map fun old =>
        if entry.fp words.cityFingerprint = fp then entry else old := by
    intro dic entry
    rw [revertEntry, lookup_modify]
    by_cases heq : entry.fp words.cityFingerprint = fp
    · rw [if_pos heq.symm]
      simp only [if_pos heq]
    · rw [if_neg (Ne.symm heq)]
      simp only [if_neg heq, Option.map_id']
  have hentries : ∀ entries : List Entry,
      RecencyList.lookup (entries.foldl (revertEntry words) dic) fp =
        (RecencyList.lookup dic fp).map fun old => (lastWrite words fp entries).getD old := by
    intro entries
    induction entries using List.reverseRecOn with
    | nil => exact Option.map_id'.symm
    | append_singleton entries entry ih =>
      rw [List.foldl_concat, hwrite, ih, Option.map_map, lastWrite_concat]
      refine congrArg (Option.map · _) (funext fun old => ?_)
      show (if _ then _ else _) = _
      split <;> rfl
  rw [applyRevert, written]
  cases hhistory : revertEntries.historyEntry with
  | none =>
    rw [Option.filter_none, Option.none_or]
    exact hentries _
  | some entry =>
    show RecencyList.lookup (revertEntry words _ entry) fp = _
    rw [hwrite, hentries, Option.map_map]
    refine congrArg (Option.map · _) (funext fun old => ?_)
    show (if _ then _ else _) = _
    by_cases heq : entry.fp words.cityFingerprint = fp
    · rw [if_pos heq, Option.filter_some, decide_eq_true heq]
      rfl
    · rw [if_neg heq, Option.filter_some, decide_eq_false heq]
      rfl

theorem lookup_revert (revertId : UInt32) (s : HistoryState) :
    RecencyList.lookup (revert words false revertId s).dic fp =
      (RecencyList.lookup s.dic fp).map fun entry =>
        ((s.revertCache revertId).bind (written words fp)).getD entry := by
  rw [revert, if_neg Bool.false_ne_true]
  cases s.revertCache revertId with
  | none => exact Option.map_id'.symm
  | some revertEntries => exact lookup_applyRevert revertEntries

end lookups

section counts

variable {entry : Entry} {last : Option Entry} {m n f : Nat}

/-- Some of the next `m` times that an entry is shown makes it too rarely selected. -/
def Drops (suggestionFreq shownFreq m : Nat) : Prop :=
  ∃ j, 1 ≤ j ∧ j ≤ m ∧ selectedRatioIsLow suggestionFreq (shownFreq + j) = true

/-- Neither selected nor shown, and removed: as an entry is that was dropped. -/
def IsBlank (entry : Entry) : Prop :=
  entry.removed = true ∧ entry.suggestionFreq = 0 ∧ entry.shownFreq = 0

theorem remove_eq_self (h : IsBlank entry) : entry.remove = entry := by
  cases entry
  dsimp only [IsBlank] at h
  obtain ⟨rfl, rfl, rfl⟩ := h
  rfl

theorem isBlank_remove (entry : Entry) : IsBlank entry.remove := ⟨rfl, rfl, rfl⟩

theorem not_drops_of_pos (hpos : 0 < f) (hm : m ≤ kMaxHistorySize) : ¬ Drops f 0 m := by
  rintro ⟨j, -, hj, hlow⟩
  have hle : f * 2 ^ 58 ≤ (0 + j) * (26843545 * 2 ^ 29 + 1) := of_decide_eq_true hlow
  have hj' : j ≤ 5 := hj.trans hm
  omega

theorem drops_of_isBlank (h : IsBlank entry) (hm : m ≠ 0) :
    Drops entry.suggestionFreq entry.shownFreq m := by
  refine ⟨1, le_rfl, Nat.one_le_iff_ne_zero.mpr hm, ?_⟩
  rw [h.2.1, selectedRatioIsLow, Nat.zero_mul]
  exact decide_eq_true (Nat.zero_le _)

theorem show_counts (h : ¬ Drops entry.suggestionFreq entry.shownFreq m) :
    showView^[m] (some entry, last) =
      (some { entry with shownFreq := entry.shownFreq + m }, last) := by
  induction m generalizing entry with
  | zero => rfl
  | succ m ih =>
    have hlow : ¬ selectedRatioIsLow entry.suggestionFreq (entry.shownFreq + 1) = true :=
      fun hlow => h ⟨1, le_rfl, Nat.le_add_left 1 m, hlow⟩
    rw [Function.iterate_succ_apply, showView, if_neg hlow, ih]
    · rw [Nat.add_assoc, Nat.add_comm 1 m]
    · rintro ⟨j, hj, hjm, hlow'⟩
      refine h ⟨1 + j, Nat.le_add_right 1 j, by omega, ?_⟩
      rwa [← Nat.add_assoc]

theorem show_blank (h : IsBlank entry) :
    showView^[m] (some entry, last) = (some entry, if m = 0 then last else some entry) := by
  induction m generalizing last with
  | zero => rfl
  | succ m ih =>
    have hlow : selectedRatioIsLow entry.suggestionFreq (entry.shownFreq + 1) = true := by
      rw [h.2.1, selectedRatioIsLow, Nat.zero_mul]
      exact decide_eq_true (Nat.zero_le _)
    rw [Function.iterate_succ_apply, showView, if_pos hlow, remove_eq_self h, ih,
      if_neg (Nat.succ_ne_zero m)]
    split <;> rfl

/-- An entry that is dropped leaves a snapshot: of the time before it was dropped, or, if it is shown
once more after that, of a blank entry. -/
theorem show_drops (h : Drops entry.suggestionFreq entry.shownFreq m) :
    ∃ j, 1 ≤ j ∧ j ≤ m ∧ selectedRatioIsLow entry.suggestionFreq (entry.shownFreq + j) = true ∧
      (∀ i, 1 ≤ i → i < j →
        ¬ selectedRatioIsLow entry.suggestionFreq (entry.shownFreq + i) = true) ∧
      showView^[m] (some entry, last) = (some entry.remove,
        some (if j = m then { entry with shownFreq := entry.shownFreq + (j - 1) }
          else entry.remove)) := by
  induction m generalizing entry with
  | zero =>
    obtain ⟨j, hj, hjm, -⟩ := h
    omega
  | succ m ih =>
    by_cases hlow : selectedRatioIsLow entry.suggestionFreq (entry.shownFreq + 1) = true
    · refine ⟨1, le_rfl, Nat.le_add_left 1 m, hlow, fun i hi hi' => absurd hi (by omega), ?_⟩
      rw [Function.iterate_succ_apply, showView, if_pos hlow, show_blank (isBlank_remove entry)]
      by_cases hm : m = 0
      · rw [if_pos hm, if_pos (by omega)]
        rfl
      · rw [if_neg hm, if_neg (by omega)]
    · have hrest : Drops entry.suggestionFreq (entry.shownFreq + 1) m := by
        obtain ⟨j, hj, hjm, hlow'⟩ := h
        have hj1 : j ≠ 1 := by
          rintro rfl
          exact hlow hlow'
        refine ⟨j - 1, by omega, by omega, ?_⟩
        rwa [Nat.add_assoc, show 1 + (j - 1) = j by omega]
      obtain ⟨j, hj, hjm, hlow', hfirst, hview⟩ :=
        @ih { entry with shownFreq := entry.shownFreq + 1 } hrest
      refine ⟨j + 1, by omega, by omega, ?_, fun i hi hij => ?_, ?_⟩
      · rwa [Nat.add_comm j 1, ← Nat.add_assoc]
      · by_cases hi1 : i = 1
        · rwa [hi1]
        · have := hfirst (i - 1) (by omega) (by omega)
          rwa [Nat.add_assoc, show 1 + (i - 1) = i by omega] at this
      · rw [Function.iterate_succ_apply, showView, if_neg hlow, hview]
        have hshown : entry.shownFreq + 1 + (j - 1) = entry.shownFreq + (j + 1 - 1) := by omega
        by_cases hjm' : j = m
        · rw [if_pos hjm', if_pos (congrArg (· + 1) hjm'), hshown]
          rfl
        · rw [if_neg hjm', if_neg (fun hcon => hjm' (Nat.succ.inj hcon))]
          rfl

theorem show_none : showView^[m] (none, last) = (none, last) := by
  induction m with
  | zero => rfl
  | succ m ih => exact ih

/-- An entry that is only shown is given back if it was blank, or was dropped at the first time and
not shown again. -/
def ShownBack (entry : Entry) (m : Nat) : Prop :=
  m = 0 ∨ IsBlank entry ∨
    m = 1 ∧ selectedRatioIsLow entry.suggestionFreq (entry.shownFreq + 1) = true

def reverted (view : Option Entry × Option Entry) : Option Entry :=
  view.1.map fun entry => view.2.getD entry

theorem reverted_show_iff :
    reverted (showView^[m] (some entry, none)) = some entry ↔ ShownBack entry m := by
  by_cases hdrops : Drops entry.suggestionFreq entry.shownFreq m
  · obtain ⟨j, hj, hjm, hlow, hfirst, hview⟩ := @show_drops entry none m hdrops
    have hblank : IsBlank entry → j = 1 := by
      intro h
      by_contra hne
      obtain ⟨i, hi, hi1, hlow'⟩ := drops_of_isBlank h one_ne_zero
      obtain rfl : i = 1 := by omega
      exact hfirst 1 le_rfl (by omega) hlow'
    rw [hview, reverted, Option.map_some, Option.getD_some, Option.some.injEq]
    by_cases hjm' : j = m
    · rw [if_pos hjm']
      constructor
      · intro heq
        have hshown := congrArg Entry.shownFreq heq
        dsimp only at hshown
        obtain rfl : j = 1 := by omega
        exact .inr (.inr ⟨hjm'.symm, hlow⟩)
      · intro hback
        obtain rfl : j = 1 := by
          rcases hback with hm | hb | ⟨hm, -⟩
          · omega
          · exact hblank hb
          · omega
        rfl
    · rw [if_neg hjm']
      constructor
      · intro heq
        exact .inr (.inl (heq ▸ isBlank_remove entry))
      · rintro (hm | hb | ⟨hm, -⟩)
        · omega
        · exact remove_eq_self hb
        · omega
  · rw [show_counts hdrops, reverted, Option.map_some, Option.getD_none, Option.some.injEq]
    constructor
    · intro heq
      have hshown := congrArg Entry.shownFreq heq
      dsimp only at hshown
      exact .inl (by omega)
    · rintro (rfl | hb | ⟨rfl, hlow⟩)
      · rfl
      · by_contra hne
        refine hdrops (drops_of_isBlank hb ?_)
        rintro rfl
        exact hne rfl
      · exact absurd ⟨1, le_rfl, le_rfl, hlow⟩ hdrops

end counts

section insertedEntries

variable {before last : Option Entry} {inserted : List InsertArgs} {m : Nat}

/-- An entry is given back as it was; one that was not there is left removed and without frequency. -/
def RestoredAt (before after : Option Entry) : Prop :=
  match before with
  | some entry => after = some entry
  | none => ∀ entry, after = some entry → entry.removed = true ∧ entry.suggestionFreq = 0

theorem foldl_insertView_fst (h : inserted ≠ []) : ∃ entry,
    (inserted.foldl insertView (before, last)).1 = some entry ∧
      entry.suggestionFreq = (before.getD {}).suggestionFreq + inserted.length ∧
      entry.shownFreq = (before.getD {}).shownFreq ∧ entry.removed = false := by
  induction inserted using List.reverseRecOn with
  | nil => exact absurd rfl h
  | append_singleton inserted args ih =>
    rw [List.foldl_concat, List.length_append]
    by_cases hnil : inserted = []
    · subst hnil
      obtain ⟨hfreq, hshown, hremoved, -⟩ := args.learn_spec (before.getD {})
      exact ⟨_, rfl, hfreq, hshown, hremoved⟩
    · obtain ⟨entry, hentry, hfreq, hshown, -⟩ := ih hnil
      obtain ⟨hfreq', hshown', hremoved', -⟩ := args.learn_spec entry
      refine ⟨args.learn entry, ?_, ?_, hshown'.trans hshown, hremoved'⟩
      · rw [insertView, hentry, Option.getD_some]
      · rw [hfreq', hfreq, List.length_singleton, Nat.add_assoc]

theorem foldl_insertView_isSome : (inserted.foldl insertView (before, last)).1.isSome ↔
    before.isSome ∨ inserted ≠ [] := by
  by_cases h : inserted = []
  · rw [h]
    simp
  · obtain ⟨entry, hentry, -⟩ := @foldl_insertView_fst before last inserted h
    rw [hentry]
    exact iff_of_true rfl (.inr h)

theorem foldl_insertView_snd (h : 2 ≤ inserted.length) : ∃ entry,
    (inserted.foldl insertView (before, last)).2 = some entry ∧ entry.removed = false ∧
      (before.getD {}).suggestionFreq < entry.suggestionFreq := by
  induction inserted using List.reverseRecOn with
  | nil => exact absurd h (by decide)
  | append_singleton inserted args _ =>
    rw [List.length_append, List.length_singleton] at h
    have hne : inserted ≠ [] := List.ne_nil_of_length_pos (by omega)
    obtain ⟨entry, hentry, hfreq, -, hremoved⟩ := @foldl_insertView_fst before last inserted hne
    refine ⟨entry, ?_, hremoved, by omega⟩
    rw [List.foldl_concat, insertView, hentry]
    rfl

theorem not_restoredAt_of_drops (hm : m ≤ kMaxHistorySize) {entry : Entry}
    (hfreq : (before.getD {}).suggestionFreq < entry.suggestionFreq)
    (hshown : entry.shownFreq = (before.getD {}).shownFreq)
    (hdrops : Drops entry.suggestionFreq entry.shownFreq m) :
    ¬ RestoredAt before (reverted (showView^[m] (some entry, last))) := by
  have hpos : entry.shownFreq ≠ 0 := by
    intro hzero
    rw [hzero] at hdrops
    exact not_drops_of_pos (Nat.zero_lt_of_lt hfreq) hm hdrops
  cases before with
  | none => exact absurd hshown hpos
  | some old =>
    intro hrestored
    obtain ⟨j, -, -, -, -, hview⟩ := @show_drops entry last m hdrops
    have heq : (if j = m then { entry with shownFreq := entry.shownFreq + (j - 1) }
        else entry.remove) = old := by
      rw [hview] at hrestored
      exact Option.some.inj hrestored
    rw [Option.getD_some] at hfreq hshown
    split at heq
    · rw [← heq] at hfreq
      exact Nat.lt_irrefl _ hfreq
    · rw [← heq] at hshown
      exact hpos hshown

theorem restoredAt_once_iff {args : InsertArgs} (hm : m ≤ kMaxHistorySize) :
    RestoredAt before (reverted (showView^[m] (insertView (before, none) args))) ↔
      ¬ Drops ((before.getD {}).suggestionFreq + 1) (before.getD {}).shownFreq m := by
  obtain ⟨hfreq, hshown, -⟩ := args.learn_spec (before.getD {})
  rw [insertView, ← hfreq, ← hshown]
  constructor
  · intro hrestored hdrops
    exact not_restoredAt_of_drops hm (by rw [hfreq]; exact Nat.lt_succ_self _) hshown hdrops hrestored
  · intro hdrops
    rw [show_counts hdrops]
    cases before with
    | none =>
      intro entry hentry
      obtain rfl := Option.some.inj hentry
      exact ⟨rfl, rfl⟩
    | some entry => rfl

theorem not_restoredAt_of_two (hm : m ≤ kMaxHistorySize) (h : 2 ≤ inserted.length) :
    ¬ RestoredAt before (reverted (showView^[m] (inserted.foldl insertView (before, none)))) := by
  have hne : inserted ≠ [] := List.ne_nil_of_length_pos (by omega)
  obtain ⟨entry, hentry, hfreq, hshown, -⟩ := @foldl_insertView_fst before none inserted hne
  obtain ⟨snapshot, hsnapshot, hremoved, hmore⟩ := @foldl_insertView_snd before none inserted h
  have hview : inserted.foldl insertView (before, none) = (some entry, some snapshot) :=
    Prod.ext hentry hsnapshot
  rw [hview]
  by_cases hdrops : Drops entry.suggestionFreq entry.shownFreq m
  · exact not_restoredAt_of_drops hm (by omega) hshown hdrops
  · rw [show_counts hdrops]
    cases before with
    | none =>
      intro hrestored
      have := (hrestored snapshot rfl).1
      rw [hremoved] at this
      cases this
    | some old =>
      intro hrestored
      obtain rfl : snapshot = old := Option.some.inj hrestored
      exact Nat.lt_irrefl _ hmore

theorem show_isSome : (showView^[m] (before, last)).1.isSome = before.isSome ∧
    (last.isSome = true → (showView^[m] (before, last)).2.isSome = true) := by
  induction m generalizing before last with
  | zero => exact ⟨rfl, id⟩
  | succ m ih =>
    rw [Function.iterate_succ_apply]
    cases before with
    | none => exact ih
    | some entry =>
      rw [showView]
      split
      · obtain ⟨hsome, hlast⟩ := @ih (some entry.remove) (some entry)
        exact ⟨hsome, fun _ => hlast rfl⟩
      · exact ih

end insertedEntries

section commits

variable (words : Words) (now : Nat) (learning : SegmentsForLearning) (dic : Dic)

/-- The history entry that a commit links, if there is one: it may come with the commit itself. -/
def historyFp : Option UInt64 :=
  (linkedSegments learning).bind fun (historySegment, _) =>
    let fp := historySegment.fp words
    if (RecencyList.lookup dic fp).isSome ∨ hits words fp (conversionInserts words now learning) ≠ []
    then some fp else none

def commitInserts : List InsertArgs :=
  conversionInserts words now learning ++
    match historyFp words now learning dic, linkedSegments learning with
    | some _, some (_, conversionSegment) =>
      (spacePrefixInsert now learning conversionSegment).toList
    | _, _ => []

/-- What a commit does to the links of the history entry. -/
def historyLink (entry : Entry) : Entry :=
  match linkedSegments learning with
  | none => entry
  | some (_, conversionSegment) =>
    (historyLinks words now learning conversionSegment).foldl
      (fun entry next => insertNextEntry next entry) entry

def insertedFps : List UInt64 :=
  ((commitInserts words now learning dic).filter fun args => args.IsLearned words).map
    (InsertArgs.fp words)

/-- What the insertions and the link of a commit leave at `fp`. -/
def linkedView (fp : UInt64) : Option Entry × Option Entry :=
  let view := (hits words fp (commitInserts words now learning dic)).foldl insertView
    (RecencyList.lookup dic fp, none)
  if historyFp words now learning dic = some fp then
    (view.1.map (historyLink words now learning), view.2)
  else view

variable {words now learning dic} {allowed : Finset UInt64} {fp : UInt64}

theorem historyLink_spec (entry : Entry) : ∃ nextEntryFps,
    historyLink words now learning entry = { entry with nextEntryFps } := by
  rw [historyLink]
  split
  · exact ⟨entry.nextEntryFps, rfl⟩
  · exact foldl_insertNextEntry _ entry

theorem historyFp_of_linked {segments : SegmentForLearning × SegmentForLearning}
    (h : linkedSegments learning = some segments) : historyFp words now learning dic =
      if ((hits words (segments.1.fp words) (conversionInserts words now learning)).foldl insertView
        (RecencyList.lookup dic (segments.1.fp words), none)).1.isSome
      then some (segments.1.fp words) else none := by
  rw [historyFp, h]
  exact if_congr foldl_insertView_isSome.symm rfl rfl

theorem insertHistoryForHistorySegments_some
    {historySegment conversionSegment : SegmentForLearning} {s : Learning} {historyEntry : Entry}
    (hlinked : linkedSegments learning = some (historySegment, conversionSegment))
    (hentry : RecencyList.lookup s.dic (historySegment.fp words) = some historyEntry) :
    insertHistoryForHistorySegments words now learning s =
      let linked := (spacePrefixInsert now learning conversionSegment).toList.foldl (insert words)
        { s with revertEntries := { s.revertEntries with historyEntry := some historyEntry } }
      { linked with
        dic := linked.dic.modify (historySegment.fp words) (historyLink words now learning) } := by
  have hlink : historyLink words now learning = fun entry =>
      (historyLinks words now learning conversionSegment).foldl
        (fun entry next => insertNextEntry next entry) entry := by
    funext entry
    rw [historyLink, hlinked]
  rw [insertHistoryForHistorySegments, hlinked]
  dsimp only
  rw [hentry, hlink]
  cases spacePrefixInsert now learning conversionSegment <;> rfl

theorem insertHistoryForHistorySegments_none
    {historySegment conversionSegment : SegmentForLearning} {s : Learning}
    (hlinked : linkedSegments learning = some (historySegment, conversionSegment))
    (hentry : RecencyList.lookup s.dic (historySegment.fp words) = none) :
    insertHistoryForHistorySegments words now learning s = s := by
  rw [insertHistoryForHistorySegments, hlinked]
  dsimp only
  rw [hentry]

theorem fp_historyLink (entry : Entry) :
    (historyLink words now learning entry).fp words.cityFingerprint =
      entry.fp words.cityFingerprint := by
  obtain ⟨nextEntryFps, h⟩ := @historyLink_spec words now learning entry
  rw [h]
  rfl

theorem insertHistory_view (h : Stored words allowed dic) (hroom : allowed.card ≤ kLruCacheSize)
    (hinserts : ∀ args ∈ commitInserts words now learning dic,
      args.IsLearned words → args.fp words ∈ allowed) :
    Stored words allowed (insertHistory words now learning { dic }).dic ∧
    (insertHistory words now learning { dic }).revertEntries.historyEntry =
      (historyFp words now learning dic).bind (fun fp =>
        ((hits words fp (conversionInserts words now learning)).foldl insertView
          (RecencyList.lookup dic fp, none)).1) ∧
    (insertHistory words now learning { dic }).view words fp =
      linkedView words now learning dic fp := by
  have hconversion : ∀ fp,
      Stored words allowed ((conversionInserts words now learning).foldl (insert words) { dic }).dic ∧
      ((conversionInserts words now learning).foldl (insert words)
        { dic }).revertEntries.historyEntry = none ∧
      ((conversionInserts words now learning).foldl (insert words) { dic }).view words fp =
        (hits words fp (conversionInserts words now learning)).foldl insertView
          (RecencyList.lookup dic fp, none) :=
    fun fp => foldl_insert_view h hroom fun args hargs => hinserts args (List.mem_append_left _ hargs)
  obtain ⟨hstored, hhistory, hview⟩ := hconversion fp
  rw [insertHistory, linkedView]
  generalize (conversionInserts words now learning).foldl (insert words) { dic } = inserted at *
  cases hlinked : linkedSegments learning with
  | none =>
    have hnone : historyFp words now learning dic = none := by
      rw [historyFp, hlinked]
      rfl
    have hsame : insertHistoryForHistorySegments words now learning inserted = inserted := by
      rw [insertHistoryForHistorySegments, hlinked]
    rw [hsame, hnone, commitInserts, hnone, List.append_nil]
    exact ⟨hstored, hhistory, hview⟩
  | some segments =>
    obtain ⟨historySegment, conversionSegment⟩ := segments
    have hlookup := congrArg Prod.fst (hconversion (historySegment.fp words)).2.2
    have hfp := @historyFp_of_linked words now learning dic _ hlinked
    dsimp only [Learning.view] at hlookup hfp
    rw [← hlookup] at hfp
    cases hentry : RecencyList.lookup inserted.dic (historySegment.fp words) with
    | none =>
      rw [hentry, Option.isSome_none, if_neg Bool.false_ne_true] at hfp
      rw [insertHistoryForHistorySegments_none hlinked hentry, commitInserts, hfp, List.append_nil]
      exact ⟨hstored, hhistory, hview⟩
    | some historyEntry =>
      rw [hentry, if_pos Option.isSome_some] at hfp
      have hcommit : commitInserts words now learning dic =
          conversionInserts words now learning ++
            (spacePrefixInsert now learning conversionSegment).toList := by
        rw [commitInserts, hfp, hlinked]
      rw [hcommit] at hinserts ⊢
      rw [insertHistoryForHistorySegments_some hlinked hentry, hfp]
      obtain ⟨hstored', hhistory', hview'⟩ := @foldl_insert_view words allowed
        { inserted with
          revertEntries := { inserted.revertEntries with historyEntry := some historyEntry } }
        fp hstored hroom (spacePrefixInsert now learning conversionSegment).toList
        fun args hargs => hinserts args (List.mem_append_right _ hargs)
      have hview'' : ({ inserted with revertEntries := { inserted.revertEntries with
          historyEntry := some historyEntry } } : Learning).view words fp = inserted.view words fp := rfl
      rw [hview'', hview, ← List.foldl_append] at hview'
      rw [hits_append]
      dsimp only at hhistory' ⊢
      generalize (spacePrefixInsert now learning conversionSegment).toList.foldl _ _ = linked at *
      refine ⟨hstored'.modify fun entry hentry' => ?_,
        hhistory'.trans (hentry.symm.trans hlookup), ?_⟩
      · rw [fp_historyLink]
        exact hstored'.fp_eq _ _ hentry'
      · rw [← hview']
        dsimp only [Learning.view]
        rw [lookup_modify]
        by_cases heq : fp = historySegment.fp words
        · rw [if_pos heq, if_pos (congrArg some heq.symm), heq]
        · rw [if_neg heq, if_neg fun hcon => heq (Option.some.inj hcon).symm]

theorem commit_view (h : Stored words allowed dic) (hroom : allowed.card ≤ kLruCacheSize)
    (hinserts : ∀ args ∈ commitInserts words now learning dic,
      args.IsLearned words → args.fp words ∈ allowed) (results : List Result) :
    (maybeRemoveUnselectedHistory words results
      (insertHistory words now learning { dic })).revertEntries.historyEntry =
        (historyFp words now learning dic).bind (fun fp =>
          ((hits words fp (conversionInserts words now learning)).foldl insertView
            (RecencyList.lookup dic fp, none)).1) ∧
    (maybeRemoveUnselectedHistory words results
      (insertHistory words now learning { dic })).view words fp =
        showView^[timesShown words fp results] (linkedView words now learning dic fp) := by
  obtain ⟨hstored, hhistory, hview⟩ := @insertHistory_view words now learning dic allowed fp h hroom
    hinserts
  obtain ⟨-, hhistory', hview'⟩ := @foldl_showResult_view words allowed _ fp hstored
    (results.take kMaxHistorySize)
  rw [hview] at hview'
  exact ⟨hhistory'.trans hhistory, hview'⟩

theorem timesShown_le (results : List Result) : timesShown words fp results ≤ kMaxHistorySize :=
  (List.length_filter_le _ _).trans (List.length_take_le _ _)

theorem ne_nil_iff_lastWrite {entries : List Entry} :
    entries ≠ [] ↔ ∃ fp, (lastWrite words fp entries).isSome = true := by
  constructor
  · intro hne
    obtain rfl | ⟨init, entry, rfl⟩ := List.eq_nil_or_concat entries
    · exact absurd rfl hne
    · refine ⟨entry.fp words.cityFingerprint, ?_⟩
      rw [List.concat_eq_append, lastWrite_concat, if_pos rfl]
      exact Option.isSome_some
  · rintro ⟨fp, hsome⟩ rfl
    cases hsome

def TakesSnapshot (words : Words) (now : Nat) (learning : SegmentsForLearning) (dic : Dic)
    (results : List Result) (fp : UInt64) : Prop :=
  hits words fp (commitInserts words now learning dic) ≠ [] ∨
    ∃ entry, RecencyList.lookup dic fp = some entry ∧
      Drops entry.suggestionFreq entry.shownFreq (timesShown words fp results)

theorem show_snd_isSome_iff {entry : Entry} {m : Nat} :
    (showView^[m] (some entry, none)).2.isSome = true ↔
      Drops entry.suggestionFreq entry.shownFreq m := by
  constructor
  · intro hsome
    by_contra hdrops
    rw [show_counts hdrops] at hsome
    cases hsome
  · intro hdrops
    obtain ⟨j, -, -, -, -, hview⟩ := @show_drops entry none m hdrops
    rw [hview]
    exact Option.isSome_some

theorem linkedView_snd : (linkedView words now learning dic fp).2 =
    ((hits words fp (commitInserts words now learning dic)).foldl insertView
      (RecencyList.lookup dic fp, none)).2 := by
  show (if historyFp words now learning dic = some fp then _ else _ : _ × _).2 = _
  split <;> rfl

theorem linkedView_isSome : (linkedView words now learning dic fp).1.isSome =
    ((hits words fp (commitInserts words now learning dic)).foldl insertView
      (RecencyList.lookup dic fp, none)).1.isSome := by
  show Option.isSome (if historyFp words now learning dic = some fp then _ else _ : _ × _).1 = _
  split
  · exact Option.isSome_map
  · rfl

theorem linkedView_of_nil (h : hits words fp (commitInserts words now learning dic) = []) :
    linkedView words now learning dic fp =
      ((RecencyList.lookup dic fp).map fun entry =>
        if historyFp words now learning dic = some fp then historyLink words now learning entry
        else entry, none) := by
  rw [linkedView, h]
  by_cases hfp : historyFp words now learning dic = some fp
  · simp only [if_pos hfp]
    rfl
  · simp only [if_neg hfp, Option.map_id']
    rfl

theorem takesSnapshot_iff (results : List Result) :
    (showView^[timesShown words fp results]
      (linkedView words now learning dic fp)).2.isSome = true ↔
        TakesSnapshot words now learning dic results fp := by
  by_cases hnil : hits words fp (commitInserts words now learning dic) = []
  · rw [linkedView_of_nil hnil, TakesSnapshot]
    cases hentry : RecencyList.lookup dic fp with
    | none =>
      rw [Option.map_none, show_none]
      simp [hnil]
    | some entry =>
      rw [Option.map_some, show_snd_isSome_iff]
      obtain ⟨nextEntryFps, hlink⟩ := @historyLink_spec words now learning entry
      have hcounts : ∀ p : Prop, [Decidable p] →
          (if p then historyLink words now learning entry else entry).suggestionFreq =
              entry.suggestionFreq ∧
            (if p then historyLink words now learning entry else entry).shownFreq =
              entry.shownFreq := by
        intro p _
        rw [hlink]
        split <;> exact ⟨rfl, rfl⟩
      rw [(hcounts _).1, (hcounts _).2]
      simp [hnil]
  · have hlast : (linkedView words now learning dic fp).2.isSome = true := by
      rw [linkedView_snd, ← List.dropLast_append_getLast hnil, List.foldl_concat]
      exact Option.isSome_some
    exact iff_of_true (show_isSome.2 hlast) (.inl hnil)

theorem fp_of_commit_history (h : Stored words allowed dic) (hroom : allowed.card ≤ kLruCacheSize)
    (hinserts : ∀ args ∈ commitInserts words now learning dic,
      args.IsLearned words → args.fp words ∈ allowed) {entry : Entry}
    (hentry : ((hits words fp (conversionInserts words now learning)).foldl insertView
      (RecencyList.lookup dic fp, none)).1 = some entry) : entry.fp words.cityFingerprint = fp := by
  obtain ⟨hstored, -, hview⟩ := @foldl_insert_view words allowed { dic } fp h hroom
    (conversionInserts words now learning)
    fun args hargs => hinserts args (List.mem_append_left _ hargs)
  apply hstored.fp_eq
  have hlookup := congrArg Prod.fst hview
  exact hlookup.trans hentry

end commits

section reverts

variable (words : Words) (now : Nat) (learning : SegmentsForLearning) (dic : Dic)
  (results : List Result)

/-- `Revert` gives back at `fp` what a commit that takes a snapshot has changed there. -/
def RevertsAt (fp : UInt64) : Prop :=
  if historyFp words now learning dic = some fp then
    hits words fp (conversionInserts words now learning) = []
  else
    match hits words fp (commitInserts words now learning dic) with
    | [] => ∀ entry, RecencyList.lookup dic fp = some entry →
        ShownBack entry (timesShown words fp results)
    | [_] => ¬ Drops (((RecencyList.lookup dic fp).getD {}).suggestionFreq + 1)
        ((RecencyList.lookup dic fp).getD {}).shownFreq (timesShown words fp results)
    | _ => False

/-- A commit that takes no snapshot has changed nothing at `fp`, or what an earlier commit has left
for the same id makes up for it. -/
def KeepsAt (earlier : Option RevertEntries) (fp : UInt64) : Prop :=
  ∀ entry, RecencyList.lookup dic fp = some entry →
    match earlier.bind (written words fp) with
    | some old => old = entry
    | none => timesShown words fp results = 0 ∧
        (historyFp words now learning dic = some fp →
          historyLink words now learning entry = entry)

def Reverts (earlier : Option RevertEntries) : Prop :=
  ((∃ fp, TakesSnapshot words now learning dic results fp) →
      ∀ fp, RevertsAt words now learning dic results fp) ∧
    ((¬ ∃ fp, TakesSnapshot words now learning dic results fp) →
      ∀ fp, KeepsAt words now learning dic results earlier fp)

variable {words now learning dic results} {allowed : Finset UInt64} {fp : UInt64}

theorem restoredAt_inserted_iff {before : Option Entry} {inserted : List InsertArgs} {entry : Entry}
    (hentry : (inserted.foldl insertView (before, none)).1 = some entry) :
    RestoredAt before (some entry) ↔ inserted = [] := by
  constructor
  · intro hrestored
    by_contra hne
    obtain ⟨entry', hentry', hfreq, -, hremoved⟩ := @foldl_insertView_fst before none inserted hne
    obtain rfl : entry' = entry := Option.some.inj (hentry'.symm.trans hentry)
    cases before with
    | none =>
      have := (hrestored entry' rfl).1
      rw [hremoved] at this
      cases this
    | some old =>
      obtain rfl : entry' = old := Option.some.inj hrestored
      rw [Option.getD_some] at hfreq
      have := List.length_pos_of_ne_nil hne
      omega
  · rintro rfl
    rw [show before = some entry from hentry]
    rfl

theorem exists_historyEntry (hfp : historyFp words now learning dic = some fp) :
    ((RecencyList.lookup dic fp).isSome = true ∨
      hits words fp (conversionInserts words now learning) ≠ []) ∧
    ∃ entry, ((hits words fp (conversionInserts words now learning)).foldl insertView
      (RecencyList.lookup dic fp, none)).1 = some entry := by
  have hsome : ((hits words fp (conversionInserts words now learning)).foldl insertView
      (RecencyList.lookup dic fp, none)).1.isSome = true := by
    cases hlinked : linkedSegments learning with
    | none =>
      rw [historyFp, hlinked] at hfp
      cases hfp
    | some segments =>
      rw [historyFp_of_linked hlinked] at hfp
      obtain ⟨hsome, heq⟩ := Option.ite_none_right_eq_some.mp hfp
      rwa [← Option.some.inj heq]
  exact ⟨foldl_insertView_isSome.mp hsome, Option.isSome_iff_exists.mp hsome⟩

theorem restoredAt_history_iff {learned : Learning} {m : Nat}
    (hfp : historyFp words now learning dic = some fp)
    (hwritten : written words fp learned.revertEntries =
      ((hits words fp (conversionInserts words now learning)).foldl insertView
        (RecencyList.lookup dic fp, none)).1)
    (hview : learned.view words fp = showView^[m] (linkedView words now learning dic fp)) :
    RestoredAt (RecencyList.lookup dic fp)
        ((RecencyList.lookup learned.dic fp).map fun entry =>
          (written words fp learned.revertEntries).getD entry) ↔
      hits words fp (conversionInserts words now learning) = [] := by
  obtain ⟨hsome, entry, hentry⟩ := exists_historyEntry hfp
  have hlookup : (RecencyList.lookup learned.dic fp).isSome = true := by
    have hfst := congrArg (fun view => Option.isSome (Prod.fst view)) hview
    apply hfst.trans
    rw [show_isSome.1, linkedView_isSome, commitInserts, hits_append]
    apply foldl_insertView_isSome.mpr
    exact hsome.imp_right fun hne => List.append_ne_nil_of_left_ne_nil hne _
  obtain ⟨final, hfinal⟩ := Option.isSome_iff_exists.mp hlookup
  rw [hwritten, hentry, hfinal]
  exact restoredAt_inserted_iff hentry

theorem restoredAt_inserts_iff {learned : Learning}
    (hfp : historyFp words now learning dic ≠ some fp)
    (hwritten : written words fp learned.revertEntries =
      lastWrite words fp learned.revertEntries.entries)
    (hview : learned.view words fp =
      showView^[timesShown words fp results] (linkedView words now learning dic fp)) :
    RestoredAt (RecencyList.lookup dic fp)
        ((RecencyList.lookup learned.dic fp).map fun entry =>
          (written words fp learned.revertEntries).getD entry) ↔
      RevertsAt words now learning dic results fp := by
  have hreverted : ((RecencyList.lookup learned.dic fp).map fun entry =>
      (written words fp learned.revertEntries).getD entry) = reverted (learned.view words fp) := by
    rw [hwritten]
    rfl
  rw [hreverted, hview, linkedView, if_neg hfp, RevertsAt, if_neg hfp]
  have hm : timesShown words fp results ≤ kMaxHistorySize := timesShown_le results
  cases hhits : hits words fp (commitInserts words now learning dic) with
  | nil =>
    rw [List.foldl_nil]
    cases hentry : RecencyList.lookup dic fp with
    | none =>
      rw [show_none]
      exact iff_of_true (fun entry h => nomatch h) (fun entry h => nomatch h)
    | some entry =>
      refine reverted_show_iff.trans ⟨fun hback entry' h => ?_, fun hback => hback entry rfl⟩
      rwa [← Option.some.inj h]
  | cons args rest =>
    cases rest with
    | nil => exact restoredAt_once_iff hm
    | cons args' rest => exact iff_of_false (not_restoredAt_of_two hm (by simp)) id

theorem written_of_commit {revertEntries : RevertEntries}
    (h : Stored words allowed dic) (hroom : allowed.card ≤ kLruCacheSize)
    (hinserts : ∀ args ∈ commitInserts words now learning dic,
      args.IsLearned words → args.fp words ∈ allowed)
    (hhistory : revertEntries.historyEntry = (historyFp words now learning dic).bind (fun fp =>
      ((hits words fp (conversionInserts words now learning)).foldl insertView
        (RecencyList.lookup dic fp, none)).1)) :
    written words fp revertEntries =
      if historyFp words now learning dic = some fp then
        ((hits words fp (conversionInserts words now learning)).foldl insertView
          (RecencyList.lookup dic fp, none)).1
      else lastWrite words fp revertEntries.entries := by
  rw [written, hhistory]
  cases hfp : historyFp words now learning dic with
  | none =>
    rw [if_neg (Option.some_ne_none fp).symm]
    rfl
  | some fp' =>
    obtain ⟨-, entry, hentry⟩ := exists_historyEntry hfp
    have hfp' := fp_of_commit_history h hroom hinserts hentry
    rw [Option.bind_some, hentry, Option.filter_some, hfp']
    by_cases heq : fp' = fp
    · subst heq
      rw [if_pos (decide_eq_true rfl), if_pos rfl, hentry]
      rfl
    · rw [if_neg (by simpa using heq), if_neg fun hcon => heq (Option.some.inj hcon)]
      rfl

theorem restoredAt_unrecorded_iff {learned : Learning} {earlier : Option RevertEntries}
    (hunrecorded : ¬ TakesSnapshot words now learning dic results fp)
    (hview : learned.view words fp =
      showView^[timesShown words fp results] (linkedView words now learning dic fp)) :
    RestoredAt (RecencyList.lookup dic fp)
        ((RecencyList.lookup learned.dic fp).map fun entry =>
          (earlier.bind (written words fp)).getD entry) ↔
      KeepsAt words now learning dic results earlier fp := by
  obtain ⟨hhits, hdrops⟩ := not_or.mp hunrecorded
  have hlookup : RecencyList.lookup learned.dic fp = _ := congrArg Prod.fst hview
  rw [linkedView_of_nil (not_not.mp hhits)] at hlookup
  rw [hlookup, KeepsAt]
  cases hentry : RecencyList.lookup dic fp with
  | none =>
    rw [Option.map_none, show_none]
    exact iff_of_true (fun entry h => nomatch h) (fun entry h => nomatch h)
  | some entry =>
    have hnot : ¬ Drops entry.suggestionFreq entry.shownFreq (timesShown words fp results) :=
      fun h => hdrops ⟨entry, hentry, h⟩
    obtain ⟨nextEntryFps, hlink⟩ := @historyLink_spec words now learning entry
    have hshown : showView^[timesShown words fp results]
        ((some entry).map fun entry =>
          if historyFp words now learning dic = some fp then historyLink words now learning entry
          else entry, none) =
        (some { (if historyFp words now learning dic = some fp then
            historyLink words now learning entry else entry) with
          shownFreq := entry.shownFreq + timesShown words fp results }, none) := by
      rw [Option.map_some, hlink]
      split <;> exact show_counts hnot
    rw [hshown, Option.map_some]
    have hforall : ∀ p : Entry → Prop, (∀ entry', some entry = some entry' → p entry') ↔ p entry :=
      fun p => ⟨fun h => h entry rfl, fun h entry' heq => Option.some.inj heq ▸ h⟩
    rw [hforall]
    show some _ = some entry ↔ _
    rw [Option.some.injEq]
    cases earlier.bind (written words fp) with
    | some old => exact Iff.rfl
    | none =>
      rw [Option.getD_none]
      dsimp only
      constructor
      · intro heq
        have hzero : timesShown words fp results = 0 := by
          have := congrArg Entry.shownFreq heq
          dsimp only at this
          omega
        refine ⟨hzero, fun hfp => ?_⟩
        rw [if_pos hfp, hzero, hlink] at heq
        rw [hlink]
        exact heq
      · rintro ⟨hzero, hlinked⟩
        rw [hzero]
        split
        · rename_i hfp
          rw [hlinked hfp]
          rfl
        · rfl

end reverts

/-- Every entry is given back as it was, and what was not there is left removed. -/
def Restored (before after : Dic) : Prop :=
  ∀ fp, RestoredAt (RecencyList.lookup before fp) (RecencyList.lookup after fp)

/-- The entries that the storage has to have room for: its own and those of the commit. -/
def commitFps (words : Words) (now : Nat) (learning : SegmentsForLearning) (dic : Dic) :
    Finset UInt64 :=
  (dic.map Prod.fst).toFinset ∪ (insertedFps words now learning dic).toFinset

/-- `Finish` and then `Revert` restore a storage with room for the commit if and only if the commit is
one of those that `Revert` undoes. -/
theorem revert_finish_restored_iff (words : Words) (request : FinishRequest) (syncing : Bool)
    (now : Nat) (result : Result) (results : List Result) (revertId : UInt32) (s : HistoryState)
    (haccepts : Accepts words request syncing result) (hnodup : (s.dic.map Prod.fst).Nodup)
    (hfp : ∀ fp entry, RecencyList.lookup s.dic fp = some entry →
      entry.fp words.cityFingerprint = fp)
    (hroom : (commitFps words now (makeSegmentsForLearning words request s.dic result)
      s.dic).card ≤ kLruCacheSize) :
    Restored s.dic (revert words syncing revertId
        (finish words request syncing now (result :: results) revertId s)).dic ↔
      Reverts words now (makeSegmentsForLearning words request s.dic result) s.dic
        (result :: results) (s.revertCache revertId) := by
  have hsyncing : syncing = false := haccepts.2.2.2.1
  have hstored : Stored words (commitFps words now
      (makeSegmentsForLearning words request s.dic result) s.dic) s.dic :=
    ⟨hnodup, hfp, fun fp h => Finset.mem_union_left _ (List.mem_toFinset.mpr h)⟩
  have hinserts : ∀ args ∈ commitInserts words now
      (makeSegmentsForLearning words request s.dic result) s.dic, args.IsLearned words →
        args.fp words ∈ commitFps words now
          (makeSegmentsForLearning words request s.dic result) s.dic := by
    intro args hargs hlearned
    refine Finset.mem_union_right _ (List.mem_toFinset.mpr (List.mem_map_of_mem ?_))
    exact List.mem_filter.mpr ⟨hargs, decide_eq_true hlearned⟩
  have hcommit := fun fp => @commit_view words now (makeSegmentsForLearning words request s.dic result)
    s.dic _ fp hstored hroom hinserts (result :: results)
  rw [finish]
  dsimp only
  rw [if_pos haccepts, hsyncing]
  change ∀ fp, (learn words request now result results s.dic).revertEntries.historyEntry = _ ∧
    (learn words request now result results s.dic).view words fp = _ at hcommit
  generalize learn words request now result results s.dic = learned at *
  generalize makeSegmentsForLearning words request s.dic result = learning at *
  have hsnapshot : learned.revertEntries.entries ≠ [] ↔
      ∃ fp, TakesSnapshot words now learning s.dic (result :: results) fp := by
    rw [@ne_nil_iff_lastWrite words]
    apply exists_congr
    intro fp
    rw [← takesSnapshot_iff, ← (hcommit fp).2]
    rfl
  by_cases hnil : learned.revertEntries.entries = []
  · have hnone := not_exists.mp (mt hsnapshot.mpr (not_not.mpr hnil))
    rw [if_pos hnil, Reverts]
    refine Iff.trans (forall_congr' fun fp => ?_)
      ⟨fun h => ⟨fun hsome => absurd hsome (not_exists.mpr hnone), fun _ => h⟩,
        fun h => h.2 (not_exists.mpr hnone)⟩
    rw [lookup_revert]
    exact restoredAt_unrecorded_iff (hnone fp) (hcommit fp).2
  · have hsome := hsnapshot.mp hnil
    rw [if_neg hnil, Reverts]
    refine Iff.trans (forall_congr' fun fp => ?_)
      ⟨fun h => ⟨fun _ => h, fun hnone => absurd hsome hnone⟩, fun h => h.1 hsome⟩
    obtain ⟨hhistory, hview⟩ := hcommit fp
    have hwritten := @written_of_commit words now learning s.dic _ fp _ hstored hroom hinserts hhistory
    rw [lookup_revert]
    dsimp only
    rw [Function.update_self, Option.bind_some]
    by_cases hhistoryFp : historyFp words now learning s.dic = some fp
    · rw [if_pos hhistoryFp] at hwritten
      rw [restoredAt_history_iff hhistoryFp hwritten hview, RevertsAt, if_pos hhistoryFp]
    · rw [if_neg hhistoryFp] at hwritten
      exact restoredAt_inserts_iff hhistoryFp hwritten hview

def summedWords : Words where
  cityFingerprint := byteSum
  isNumber _ := false
  startsWithValidLetter _ := true
  isProperNoun _ _ := false

theorem fp_eq_of_forall {words : Words} {dic : Dic}
    (h : ∀ x ∈ dic, x.2.fp words.cityFingerprint = x.1) (fp : UInt64) (entry : Entry)
    (hentry : RecencyList.lookup dic fp = some entry) : entry.fp words.cityFingerprint = fp :=
  h (fp, entry) (mem_keys_of_lookup hentry)

/-- `a` is committed, while the storage has an entry of `b`. -/
theorem revert_finish_restored_single :
    Restored [chained [0x62] [0x42] []] (revert summedWords false 1
      (finish summedWords {} false 5 [{ key := [0x61], value := [0x41] }] 1
        ⟨[chained [0x62] [0x42] []], fun _ => none⟩)).dic := by
  have hinserts : commitInserts summedWords 5
      (makeSegmentsForLearning summedWords {} [chained [0x62] [0x42] []]
        { key := [0x61], value := [0x41] }) [chained [0x62] [0x42] []] =
      [{ key := [0x61], value := [0x41], description := [], innerSegmentBoundary := [],
         nextFps := [], allowPartialMatch := false, lastAccessTime := 5 }] := by
    decide
  apply (revert_finish_restored_iff summedWords {} false 5 { key := [0x61], value := [0x41] } [] 1
    ⟨[chained [0x62] [0x42] []], fun _ => none⟩ (by decide) (by decide)
    (fp_eq_of_forall (by decide)) (by decide)).mpr
  refine ⟨fun _ fp => ?_, fun hnone => absurd ⟨171, .inl ?_⟩ hnone⟩
  · have hfp : historyFp summedWords 5 (makeSegmentsForLearning summedWords {}
        [chained [0x62] [0x42] []] { key := [0x61], value := [0x41] }) [chained [0x62] [0x42] []] =
          none := by
      decide
    dsimp only
    rw [RevertsAt, hfp, if_neg (Option.some_ne_none fp).symm, hinserts]
    by_cases heq : fp = 171
    · subst heq
      exact not_drops_of_pos (Nat.succ_pos _) (timesShown_le _)
    · have hhits : hits summedWords fp
          [{ key := [0x61], value := [0x41], description := [], innerSegmentBoundary := [],
             nextFps := [], allowPartialMatch := false, lastAccessTime := 5 }] = [] := by
        refine List.filter_cons_of_neg ?_
        rw [decide_eq_true_iff]
        rintro ⟨-, hfp'⟩
        exact heq (hfp'.symm.trans (by decide))
      rw [hhits]
      intro entry _
      refine .inl (congrArg List.length (List.filter_cons_of_neg ?_))
      rw [decide_eq_true_iff]
      intro hfp'
      exact heq (hfp'.symm.trans (by decide))
  · rw [hinserts]
    decide

/-- A segment that stands twice in the result is left as an entry, which is not removed. -/
theorem not_restored_of_repeated_segment :
    ¬ ∀ (words : Words) (request : FinishRequest) (syncing : Bool) (now : Nat) (result : Result)
      (results : List Result) (revertId : UInt32) (s : HistoryState),
      Accepts words request syncing result → (s.dic.map Prod.fst).Nodup →
      (∀ fp entry, RecencyList.lookup s.dic fp = some entry →
        entry.fp words.cityFingerprint = fp) →
      s.dic.length < kLruCacheSize →
      Restored s.dic (revert words syncing revertId
        (finish words request syncing now (result :: results) revertId s)).dic := by
  intro h
  have hrestored := h summedWords {} false 5
    { key := [0x61, 0x61], value := [0x41, 0x41],
      innerSegmentBoundary := [0x01010101, 0x01010101] } [] 1
    ⟨[], fun _ => none⟩ (by decide) (by decide) (fp_eq_of_forall (by decide)) (by decide)
  have hleft : ∃ entry, RecencyList.lookup (revert summedWords false 1 (finish summedWords {} false 5
      [{ key := [0x61, 0x61], value := [0x41, 0x41],
         innerSegmentBoundary := [0x01010101, 0x01010101] }] 1 ⟨[], fun _ => none⟩)).dic 171 =
        some entry ∧ entry.removed = false := ⟨_, rfl, rfl⟩
  obtain ⟨entry, hentry, hremoved⟩ := hleft
  obtain ⟨hremoved', -⟩ := hrestored 171 entry hentry
  rw [hremoved] at hremoved'
  cases hremoved'

end Mozkey.Prediction
