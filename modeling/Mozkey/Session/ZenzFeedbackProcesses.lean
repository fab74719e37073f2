import Mozkey.Lib.Runs
import Mozkey.Session.ZenzFeedbackStoreCorrect

/-! The feedback file under two processes: the converter, which appends records to it, and the
settings, which load it, compute the new records and replace it. -/

namespace Mozkey.Session

open Storage Base Lib Lib.Delimited

namespace ZenzFeedbackStore

/-- The contents of the files that have been made, the one at the path of the store, and the next
one to be made. -/
structure Disk where
  contents : Nat → Bytes
  link : Option Nat
  next : Nat

def Disk.content (disk : Disk) : Bytes := (disk.link.map disk.contents).getD []

/-- An `AppendRecord` that has opened its file, with what it has yet to write. -/
structure Appending where
  file : Nat
  record : ParsedFeedbackRecord
  rest : Bytes

/-- What the settings do to the records they have loaded. -/
inductive Rewrite where
  | deleteEntry (key contextClass value : Bytes)
  | importAppend (importedRecords : List ParsedFeedbackRecord)

def Rewrite.apply (records : List ParsedFeedbackRecord) : Rewrite → List ParsedFeedbackRecord
  | .deleteEntry key contextClass value =>
    records.filter fun record => ¬ isEntry key contextClass value record
  | .importAppend importedRecords => records ++ importedRecords

/-- A deletion that finds no record to delete does not write. -/
def Rewrite.writes (records : List ParsedFeedbackRecord) : Rewrite → Bool
  | .deleteEntry key contextClass value => records.any (isEntry key contextClass value)
  | .importAppend _ => true

structure Processes where
  disk : Disk
  appending : Option Appending
  rewriting : Option (Rewrite × List ParsedFeedbackRecord)

/-- The steps: an append opens the file and writes some bytes, a rewrite loads the file, and either
puts another file in its place or ends without. A file that cannot be opened is loaded as an empty
one. -/
inductive Event where
  | openFile (record : ParsedFeedbackRecord)
  | write (count : Nat)
  | load (rewrite : Rewrite) (opened : Bool)
  | replace
  | giveUp

section steps

variable (isValidUtf8 : Bytes → Bool)

def Disk.records (disk : Disk) : List ParsedFeedbackRecord :=
  (loadRecordsFromStream isValidUtf8 false disk.content).2

/-- `std::ofstream` with `app`, which makes the file when there is none. -/
def Disk.openFile (disk : Disk) : Nat × Disk :=
  match disk.link with
  | some file => (file, disk)
  | none =>
    (disk.next, { contents := Function.update disk.contents disk.next []
                  link := some disk.next
                  next := disk.next + 1 })

/-- The rename of the written file, or the unlink when there is nothing to write. -/
def Disk.replace (disk : Disk) (records : List ParsedFeedbackRecord) : Disk :=
  if records = [] then { disk with link := none }
  else
    { contents := Function.update disk.contents disk.next (records.flatMap writeRecordToStream)
      link := some disk.next
      next := disk.next + 1 }

def Rewrite.isSafe : Rewrite → Bool
  | .deleteEntry _ _ _ => true
  | .importAppend importedRecords => importedRecords.all (isSafeFeedbackRecord isValidUtf8)

def Processes.step (s : Processes) : Event → Option Processes
  | .openFile record =>
    if s.appending.isNone ∧ isSafeFeedbackRecord isValidUtf8 record then
      let (file, disk) := s.disk.openFile
      some { s with disk, appending := some ⟨file, record, writeRecordToStream record⟩ }
    else none
  | .write count =>
    match s.appending with
    | none => none
    | some a =>
      if 0 < count ∧ count ≤ a.rest.length then
        let contents := Function.update s.disk.contents a.file
          (s.disk.contents a.file ++ a.rest.take count)
        let rest := a.rest.drop count
        some { s with
          disk := { s.disk with contents }
          appending := if rest = [] then none else some { a with rest } }
      else none
  | .load rewrite opened =>
    if s.rewriting.isNone ∧ rewrite.isSafe isValidUtf8 then
      let records := if opened then s.disk.records isValidUtf8 else []
      some { s with rewriting := some (rewrite, records) }
    else none
  | .replace =>
    match s.rewriting with
    | none => none
    | some (rewrite, records) =>
      if rewrite.writes records then
        some { s with disk := s.disk.replace (rewrite.apply records), rewriting := none }
      else none
  | .giveUp => some { s with rewriting := none }

/-- What has happened: the appended records that no deletion has targeted since, and whether the
rewrite under way has missed the file or been met by an append. -/
structure History where
  kept : List ParsedFeedbackRecord
  disturbed : Bool

def History.observe (h : History) (s : Processes) : Event → History
  | .openFile _ => { h with disturbed := true }
  | .write count =>
    match s.appending with
    | none => h
    | some a => if a.rest.drop count = [] then { h with kept := h.kept ++ [a.record] } else h
  | .load _ opened => { h with disturbed := s.appending.isSome || !opened }
  | .replace =>
    match s.rewriting with
    | none => h
    | some (rewrite, _) =>
      match rewrite with
      | .deleteEntry key contextClass value =>
        { h with kept := h.kept.filter fun record => ¬ isEntry key contextClass value record }
      | .importAppend _ => h
  | .giveUp => h

def Processes.stepObserved (s : Processes × History) (e : Event) : Option (Processes × History) :=
  (s.1.step isValidUtf8 e).map fun s' => (s', s.2.observe s.1 e)

/-- The store as a file of lines, or without a file. -/
def Processes.start (lines : Option (List Bytes)) : Processes × History :=
  ({ disk :=
      { contents := fun _ => (lines.getD []).flatMap fun line => line ++ [newline]
        link := lines.map fun _ => 0
        next := 1 }
     appending := none
     rewriting := none },
    { kept := [], disturbed := false })

/-- No rewrite replaces the file when it has not read it, or an append was under way at its load or
has opened the file since. -/
def Undisturbed (s : Processes × History) : Event → Prop
  | .replace => s.2.disturbed = false
  | _ => True

instance (s : Processes × History) (e : Event) : Decidable (Undisturbed s e) := by
  cases e <;> unfold Undisturbed <;> infer_instance

end steps

section invariant

variable {isValidUtf8 : Bytes → Bool}

/-- The store is made of whole lines, with the kept records among them, and of what the append
under way has written. -/
structure Inv (isValidUtf8 : Bytes → Bool) (s : Processes × History) : Prop where
  content : ∃ whole written, s.1.disk.content = whole ++ written ∧ WholeLines newline whole ∧
    s.2.kept.Sublist (loadRecordsFromStream isValidUtf8 false whole).2 ∧
    match s.1.appending with
    | none => written = []
    | some a => s.1.disk.link = some a.file ∧ isSafeFeedbackRecord isValidUtf8 a.record ∧
      written ++ a.rest = writeRecordToStream a.record
  rewriting : ∀ rewrite records, s.1.rewriting = some (rewrite, records) →
    rewrite.isSafe isValidUtf8 ∧ (s.2.disturbed = false →
      s.1.appending = none ∧ records = s.1.disk.records isValidUtf8)

theorem loadLines_append (lines lines' : List Bytes) :
    (loadLines isValidUtf8 false (lines ++ lines')).2 =
      (loadLines isValidUtf8 false lines).2 ++ (loadLines isValidUtf8 false lines').2 := by
  induction lines with
  | nil => rfl
  | cons line lines ih =>
    rw [List.cons_append, loadLines, loadLines]
    split
    · exact ih
    split
    · exact ih
    · show _ :: (loadLines isValidUtf8 false (lines ++ lines')).2 = _
      rw [ih]
      rfl

theorem load_append {whole rest : Bytes} (h : WholeLines newline whole) :
    (loadRecordsFromStream isValidUtf8 false (whole ++ rest)).2 =
      (loadRecordsFromStream isValidUtf8 false whole).2 ++
        (loadRecordsFromStream isValidUtf8 false rest).2 := by
  rw [loadRecordsFromStream, h.lines_append, loadLines_append]
  rfl

theorem load_append_record {whole : Bytes} {record : ParsedFeedbackRecord}
    (h : WholeLines newline whole) (hsafe : isSafeFeedbackRecord isValidUtf8 record) :
    (loadRecordsFromStream isValidUtf8 false (whole ++ writeRecordToStream record)).2 =
      (loadRecordsFromStream isValidUtf8 false whole).2 ++ [record] := by
  have hrecord : loadRecordsFromStream isValidUtf8 false ([record].flatMap writeRecordToStream) =
      (true, [record]) :=
    load_flatMap_write fun r hr => List.mem_singleton.mp hr ▸ hsafe
  rw [List.flatMap_singleton] at hrecord
  rw [load_append h, hrecord]

theorem wholeLines_flatMap_write (records : List ParsedFeedbackRecord) :
    WholeLines newline (records.flatMap writeRecordToStream) := by
  rcases List.eq_nil_or_concat records with rfl | ⟨records, record, rfl⟩
  · exact Or.inl rfl
  · rw [List.concat_eq_append, List.flatMap_append, List.flatMap_singleton]
    exact WholeLines.append_line _ _

theorem Inv.kept_sublist {s : Processes × History} (h : Inv isValidUtf8 s) :
    s.2.kept.Sublist (s.1.disk.records isValidUtf8) := by
  obtain ⟨whole, written, hcontent, hwhole, hkept, -⟩ := h.content
  rw [Disk.records, hcontent, load_append hwhole]
  exact hkept.trans (List.sublist_append_left _ _)

theorem inv_start (lines : Option (List Bytes)) : Inv isValidUtf8 (Processes.start lines) := by
  refine ⟨⟨_, [], (List.append_nil _).symm, ?_, List.nil_sublist _, rfl⟩,
    fun rewrite records hrewriting => by cases hrewriting⟩
  cases lines with
  | none => exact Or.inl rfl
  | some lines =>
    show WholeLines newline (lines.flatMap fun line => line ++ [newline])
    rcases List.eq_nil_or_concat lines with rfl | ⟨lines, line, rfl⟩
    · exact Or.inl rfl
    · rw [List.concat_eq_append, List.flatMap_append, List.flatMap_singleton]
      exact WholeLines.append_line _ _

theorem content_of_link {disk : Disk} {file : Nat} (h : disk.link = some file) :
    disk.content = disk.contents file := by
  rw [Disk.content, h]
  rfl

theorem openFile_spec (disk : Disk) : disk.openFile.2.content = disk.content ∧
    disk.openFile.2.link = some disk.openFile.1 := by
  rw [Disk.openFile]
  cases hlink : disk.link with
  | some file => exact ⟨rfl, hlink⟩
  | none =>
    refine ⟨?_, rfl⟩
    rw [content_of_link rfl, Disk.content, hlink]
    exact Function.update_self _ _ _

theorem content_replace (disk : Disk) (records : List ParsedFeedbackRecord) :
    (disk.replace records).content = records.flatMap writeRecordToStream := by
  rw [Disk.replace]
  by_cases hnil : records = []
  · rw [if_pos hnil, hnil]
    rfl
  · rw [if_neg hnil, content_of_link rfl]
    exact Function.update_self _ _ _

theorem Inv.openFile {s s' : Processes × History} {record : ParsedFeedbackRecord}
    (h : Inv isValidUtf8 s)
    (hstep : Processes.stepObserved isValidUtf8 s (.openFile record) = some s') :
    Inv isValidUtf8 s' := by
  obtain ⟨t, ht, rfl⟩ := Option.map_eq_some_iff.mp hstep
  rw [Processes.step] at ht
  split at ht
  · rename_i hguard
    obtain ⟨hidle, hsafe⟩ := hguard
    cases ht
    obtain ⟨hcontent, hlink⟩ := openFile_spec s.1.disk
    obtain ⟨whole, written, hwhole, hlines, hkept, happending⟩ := h.content
    rw [Option.isNone_iff_eq_none.mp hidle] at happending
    refine ⟨⟨whole, [], ?_, hlines, hkept, hlink, hsafe, rfl⟩, fun rewrite records hr => ?_⟩
    · refine hcontent.trans ?_
      rw [hwhole, happending]
    · exact ⟨(h.rewriting rewrite records hr).1, fun hfalse => by cases hfalse⟩
  · cases ht

theorem Inv.write {s s' : Processes × History} {count : Nat} (h : Inv isValidUtf8 s)
    (hstep : Processes.stepObserved isValidUtf8 s (.write count) = some s') :
    Inv isValidUtf8 s' := by
  obtain ⟨t, ht, rfl⟩ := Option.map_eq_some_iff.mp hstep
  obtain ⟨whole, written, hwhole, hlines, hkept, happending⟩ := h.content
  have hrewriting := h.rewriting
  rw [Processes.step] at ht
  rw [History.observe]
  cases ha : s.1.appending with
  | none => rw [ha] at ht; cases ht
  | some a =>
    rw [ha] at ht happending hrewriting
    obtain ⟨hlink, hsafe, hrecord⟩ := happending
    dsimp only at ht
    split at ht
    · cases ht
      have hcontent : (s.1.disk.contents a.file ++ a.rest.take count) =
          whole ++ (written ++ a.rest.take count) := by
        rw [← content_of_link hlink, hwhole, List.append_assoc]
      have hnew : ∀ contents : Nat → Bytes, ({ s.1.disk with contents } : Disk).content =
          contents a.file := fun contents => content_of_link hlink
      refine ⟨?_, fun rewrite records hr => ?_⟩
      · by_cases hdone : a.rest.drop count = []
        · have hfinished : a.rest.take count = a.rest := by
            have happend := List.take_append_drop count a.rest
            rwa [hdone, List.append_nil] at happend
          rw [hfinished, hrecord] at hcontent
          refine ⟨whole ++ writeRecordToStream a.record, [], ?_, ?_, ?_, ?_⟩
          · rw [hnew, Function.update_self, hfinished, hcontent, List.append_nil]
          · exact WholeLines.append_line _ _
          · rw [load_append_record hlines hsafe]
            show (if a.rest.drop count = [] then _ else _ : History).kept.Sublist _
            rw [if_pos hdone]
            exact hkept.append_right _
          · show (match (if a.rest.drop count = [] then none else _ : Option Appending) with
              | none => _ | some _ => _)
            rw [if_pos hdone]
        · refine ⟨whole, written ++ a.rest.take count, ?_, hlines, ?_, ?_⟩
          · rw [hnew, Function.update_self, hcontent]
          · show (if a.rest.drop count = [] then _ else _ : History).kept.Sublist _
            rw [if_neg hdone]
            exact hkept
          · show (match (if a.rest.drop count = [] then none else _ : Option Appending) with
              | none => _ | some _ => _)
            rw [if_neg hdone]
            exact ⟨hlink, hsafe, by rw [List.append_assoc, List.take_append_drop, hrecord]⟩
      · obtain ⟨hrewrite, hquiet⟩ := hrewriting rewrite records hr
        refine ⟨hrewrite, fun hfalse => ?_⟩
        have hfalse' : s.2.disturbed = false := by
          rw [← hfalse]
          show s.2.disturbed = (if a.rest.drop count = [] then _ else _ : History).disturbed
          split <;> rfl
        cases (hquiet hfalse').1
    · cases ht

theorem Inv.load {s s' : Processes × History} {rewrite : Rewrite} {opened : Bool}
    (h : Inv isValidUtf8 s)
    (hstep : Processes.stepObserved isValidUtf8 s (.load rewrite opened) = some s') :
    Inv isValidUtf8 s' := by
  obtain ⟨t, ht, rfl⟩ := Option.map_eq_some_iff.mp hstep
  rw [Processes.step] at ht
  split at ht
  · rename_i hguard
    cases ht
    refine ⟨h.content, fun rewrite' records hr => ?_⟩
    cases hr
    refine ⟨hguard.2, fun hquiet => ?_⟩
    obtain ⟨hidle, hopened⟩ := Bool.or_eq_false_iff.mp hquiet
    rw [Bool.not_eq_false'] at hopened
    exact ⟨Option.not_isSome_iff_eq_none.mp (Bool.eq_false_iff.mp hidle), if_pos hopened⟩
  · cases ht

theorem isSafe_apply {rewrite : Rewrite} {records : List ParsedFeedbackRecord}
    (hsafe : rewrite.isSafe isValidUtf8)
    (h : ∀ record ∈ records, isSafeFeedbackRecord isValidUtf8 record) :
    ∀ record ∈ rewrite.apply records, isSafeFeedbackRecord isValidUtf8 record := by
  intro record hmem
  cases rewrite with
  | deleteEntry key contextClass value => exact h record (List.mem_filter.mp hmem).1
  | importAppend importedRecords =>
    exact (List.mem_append.mp hmem).elim (h record) (List.all_eq_true.mp hsafe record)

theorem Inv.replace {s s' : Processes × History} (h : Inv isValidUtf8 s)
    (hquiet : s.2.disturbed = false)
    (hstep : Processes.stepObserved isValidUtf8 s .replace = some s') : Inv isValidUtf8 s' := by
  obtain ⟨t, ht, rfl⟩ := Option.map_eq_some_iff.mp hstep
  rw [Processes.step] at ht
  rw [History.observe]
  cases hr : s.1.rewriting with
  | none => rw [hr] at ht; cases ht
  | some r =>
    obtain ⟨rewrite, records⟩ := r
    rw [hr] at ht
    dsimp only at ht
    split at ht
    · cases ht
      obtain ⟨hsafe, hcurrent⟩ := h.rewriting rewrite records hr
      obtain ⟨hidle, hrecords⟩ := hcurrent hquiet
      have hkept := h.kept_sublist
      rw [← hrecords] at hkept
      have hold : ∀ record ∈ records, isSafeFeedbackRecord isValidUtf8 record := by
        intro record hmem
        rw [hrecords] at hmem
        exact isSafe_of_mem_loadLines hmem
      refine ⟨⟨(rewrite.apply records).flatMap writeRecordToStream, [], ?_,
        wholeLines_flatMap_write _, ?_, ?_⟩, fun rewrite records hr' => by cases hr'⟩
      · rw [List.append_nil]
        exact content_replace _ _
      · rw [load_flatMap_write (isSafe_apply hsafe hold)]
        cases rewrite with
        | deleteEntry key contextClass value => exact hkept.filter _
        | importAppend importedRecords => exact hkept.trans (List.sublist_append_left _ _)
      · show match s.1.appending with | none => _ | some _ => _
        rw [hidle]
    · cases ht

theorem inv_step {s s' : Processes × History} {e : Event} (h : Inv isValidUtf8 s)
    (hok : Undisturbed s e) (hstep : Processes.stepObserved isValidUtf8 s e = some s') :
    Inv isValidUtf8 s' := by
  cases e with
  | openFile record => exact h.openFile hstep
  | write count => exact h.write hstep
  | load rewrite opened => exact h.load hstep
  | replace => exact h.replace hok hstep
  | giveUp =>
    obtain ⟨t, ht, rfl⟩ := Option.map_eq_some_iff.mp hstep
    cases ht
    exact ⟨h.content, fun rewrite records hr => by cases hr⟩

end invariant

section runs

/-- In every state of a run whose rewrites are not met by an append, the records whose append is
complete are in the file, but for those that a deletion has targeted. -/
theorem appended_records_kept {isValidUtf8 : Bytes → Bool} {lines : Option (List Bytes)}
    {events : List Event} {s : Processes × History}
    (h : Run (Processes.stepObserved isValidUtf8) Undisturbed (Processes.start lines) events s) :
    s.2.kept.Sublist (s.1.disk.records isValidUtf8) :=
  (h.inv (inv_start lines) fun _ _ _ hinv hok hstep => inv_step hinv hok hstep).kept_sublist

/-- A record of the action `accepted` for a key of one byte; its line has 23 bytes. -/
def acceptedRecord (key : UInt8) : ParsedFeedbackRecord :=
  { action := str "accepted", key := [key], contextClass := str "empty", value := [key]
    reason := [] }

/-- Two appends, the deletion of the first record, and another append after it. -/
def quietEvents : List Event :=
  [.openFile (acceptedRecord 0x61), .write 23, .openFile (acceptedRecord 0x62), .write 10,
    .write 13, .load (.deleteEntry [0x61] [] [0x61]) true, .replace,
    .openFile (acceptedRecord 0x63), .write 23]

theorem appended_records_kept_quietEvents : ∃ s : Processes × History,
    s.2.kept = [acceptedRecord 0x62, acceptedRecord 0x63] ∧
      s.2.kept.Sublist (s.1.disk.records fun _ => true) := by
  have hrun : (quietEvents.foldlM (fun s e =>
      if Undisturbed s e then Processes.stepObserved (fun _ => true) s e else none)
      (Processes.start none)).any
        (fun s => s.2.kept = [acceptedRecord 0x62, acceptedRecord 0x63]) = true := by
    decide +kernel
  obtain ⟨s, hs, hkept⟩ := (Option.any_eq_true _ _).mp hrun
  exact ⟨s, of_decide_eq_true hkept, appended_records_kept (Run.of_foldlM hs)⟩

/-- A record is appended between the load and the replacement of a deletion of another one. -/
theorem deleteEntry_loses_record : ¬ ∀ (isValidUtf8 : Bytes → Bool) (lines : Option (List Bytes))
    (events : List Event) (s : Processes × History),
    Run (Processes.stepObserved isValidUtf8) (fun _ _ => True) (Processes.start lines) events s →
    s.1.appending = none → s.1.rewriting = none →
    ∀ record ∈ s.2.kept, record ∈ s.1.disk.records isValidUtf8 := by
  intro h
  have hrun : (List.foldlM (fun s e =>
      if True then Processes.stepObserved (fun _ => true) s e else none)
      (Processes.start (some [recordLine (acceptedRecord 0x61)]))
      [.load (.deleteEntry [0x61] [] [0x61]) true, .openFile (acceptedRecord 0x62), .write 23,
        .replace]).any (fun s => s.1.appending.isNone && s.1.rewriting.isNone &&
          decide (s.2.kept = [acceptedRecord 0x62]) &&
          decide (s.1.disk.records (fun _ => true) = [])) = true := by
    decide +kernel
  obtain ⟨s, hs, hlost⟩ := (Option.any_eq_true _ _).mp hrun
  simp only [Bool.and_eq_true, decide_eq_true_eq, Option.isNone_iff_eq_none] at hlost
  obtain ⟨⟨⟨happending, hrewriting⟩, hkept⟩, hrecords⟩ := hlost
  have hmem := h _ _ _ s (Run.of_foldlM hs) happending hrewriting (acceptedRecord 0x62) (by
    rw [hkept]
    exact List.mem_singleton_self _)
  rw [hrecords] at hmem
  exact List.not_mem_nil hmem

end runs

end ZenzFeedbackStore

end Mozkey.Session
