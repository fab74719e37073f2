import Mozkey.Session.ZenzFeedbackStore

/-! What is written to the feedback file is read back, and what an export and an import do to the
store. -/

namespace Mozkey.Session

open Storage Base Lib.Delimited

namespace ZenzFeedbackStore

variable {isValidUtf8 : Bytes → Bool} {env : Env} {fs fs' : Files} {s : Bytes}
  {record : ParsedFeedbackRecord} {records : List ParsedFeedbackRecord}

section escape

theorem escapeChar_tab : escapeChar tab = [backslash, 0x74] := by decide

theorem escapeChar_carriageReturn : escapeChar carriageReturn = [backslash, 0x72] := by decide

theorem escapeChar_newline : escapeChar newline = [backslash, 0x6e] := by decide

theorem escapeChar_backslash : escapeChar backslash = [backslash, backslash] := by decide

theorem unescapeFrom_escapeChar (c : UInt8) (s : Bytes) :
    unescapeFrom false (escapeChar c ++ s) = c :: unescapeFrom false s := by
  by_cases htab : c = tab
  · rw [htab, escapeChar_tab]
    rfl
  by_cases hreturn : c = carriageReturn
  · rw [hreturn, escapeChar_carriageReturn]
    rfl
  by_cases hnewline : c = newline
  · rw [hnewline, escapeChar_newline]
    rfl
  by_cases hbackslash : c = backslash
  · rw [hbackslash, escapeChar_backslash]
    rfl
  rw [escapeChar, if_neg htab, if_neg hreturn, if_neg hnewline, if_neg hbackslash,
    List.singleton_append, unescapeFrom, if_neg hbackslash]

theorem unescapeTsv_escapeTsv (s : Bytes) : unescapeTsv (escapeTsv s) = s := by
  rw [unescapeTsv, escapeTsv]
  induction s with
  | nil => rfl
  | cons c s ih => rw [List.flatMap_cons, unescapeFrom_escapeChar, ih]

theorem notMem_escapeTsv {d : UInt8} (hd : d = tab ∨ d = newline) (s : Bytes) :
    d ∉ escapeTsv s := by
  intro hmem
  obtain ⟨c, -, hc⟩ := List.mem_flatMap.mp hmem
  by_cases htab : c = tab
  · rw [htab, escapeChar_tab] at hc
    rcases hd with rfl | rfl <;> exact absurd hc (by decide)
  by_cases hreturn : c = carriageReturn
  · rw [hreturn, escapeChar_carriageReturn] at hc
    rcases hd with rfl | rfl <;> exact absurd hc (by decide)
  by_cases hnewline : c = newline
  · rw [hnewline, escapeChar_newline] at hc
    rcases hd with rfl | rfl <;> exact absurd hc (by decide)
  by_cases hbackslash : c = backslash
  · rw [hbackslash, escapeChar_backslash] at hc
    rcases hd with rfl | rfl <;> exact absurd hc (by decide)
  rw [escapeChar, if_neg htab, if_neg hreturn, if_neg hnewline, if_neg hbackslash,
    List.mem_singleton] at hc
  rcases hd with rfl | rfl
  · exact htab hc.symm
  · exact hnewline hc.symm

end escape

section lines

theorem splitTab_recordLine (record : ParsedFeedbackRecord) : splitTab (recordLine record) =
    [str "v2", escapeTsv record.action, escapeTsv record.key,
      escapeTsv (normalizeContextClass record.contextClass), escapeTsv record.value,
      escapeTsv record.reason] := by
  have htab := fun s => notMem_escapeTsv (Or.inl rfl) (d := tab) s
  rw [splitTab, recordLine, splitFrom_append (by decide), splitFrom_append (htab _),
    splitFrom_append (htab _), splitFrom_append (htab _), splitFrom_append (htab _),
    splitFrom_of_notMem (htab _)]
  rfl

theorem newline_notMem_recordLine (record : ParsedFeedbackRecord) :
    newline ∉ recordLine record := by
  have hescape := fun s => notMem_escapeTsv (Or.inr rfl) (d := newline) s
  have htab : newline ≠ tab := by decide
  have hversion : newline ∉ str "v2" := by decide
  simp [recordLine, hescape, htab, hversion]

theorem recordLine_ne_nil (record : ParsedFeedbackRecord) : recordLine record ≠ [] :=
  List.append_ne_nil_of_right_ne_nil _ (List.cons_ne_nil _ _)

theorem normalizeContextClass_of_isSafe (h : isSafeFeedbackRecord isValidUtf8 record) :
    normalizeContextClass record.contextClass = record.contextClass := by
  rw [normalizeContextClass, if_neg]
  intro hnil
  have hunknown : ¬ isKnownContextClass record.contextClass := by
    rw [hnil]
    decide
  rw [isSafeFeedbackRecord, if_pos hunknown, ite_self, ite_self] at h
  cases h

theorem parseFeedbackRecord_recordLine (h : isSafeFeedbackRecord isValidUtf8 record) :
    parseFeedbackRecord isValidUtf8
      (stripUtf8BomFromFirstField (splitTab (recordLine record))) = some record := by
  have hbom : ¬ kUtf8Bom <+: str "v2" := by decide
  rw [splitTab_recordLine, stripUtf8BomFromFirstField, if_neg hbom, parseFeedbackRecord,
    if_pos ⟨(by decide : 5 ≤ 6), rfl⟩]
  simp only [List.getD_cons_succ, List.getD_cons_zero, unescapeTsv_escapeTsv, List.length_cons,
    List.length_nil]
  rw [normalizeContextClass_of_isSafe h, normalizeContextClass_of_isSafe h, if_pos (by decide),
    checked, if_pos h]

theorem isSafe_of_parse {fields : List Bytes}
    (h : parseFeedbackRecord isValidUtf8 fields = some record) :
    isSafeFeedbackRecord isValidUtf8 record := by
  have hchecked : ∀ r, checked isValidUtf8 r = some record →
      isSafeFeedbackRecord isValidUtf8 record := by
    intro r hr
    rw [checked] at hr
    split at hr
    · cases hr
      assumption
    · cases hr
  rw [parseFeedbackRecord] at h
  split at h
  · exact hchecked _ h
  split at h
  · exact hchecked _ h
  · cases h

end lines

section streams

variable {strict : Bool}

theorem writeRecordsToStream_of_isSafe (good : Bool)
    (h : ∀ record ∈ records, isSafeFeedbackRecord isValidUtf8 record) :
    writeRecordsToStream isValidUtf8 good records = (good, records.flatMap writeRecordToStream) := by
  induction records with
  | nil => rfl
  | cons record records ih =>
    rw [writeRecordsToStream, if_pos (h _ List.mem_cons_self),
      ih fun r hr => h r (List.mem_cons_of_mem _ hr), List.flatMap_cons]

theorem loadLines_map_recordLine (h : ∀ record ∈ records, isSafeFeedbackRecord isValidUtf8 record) :
    loadLines isValidUtf8 strict (records.map recordLine) = (true, records) := by
  induction records with
  | nil => rfl
  | cons record records ih =>
    rw [List.map_cons, loadLines, if_neg (recordLine_ne_nil record),
      parseFeedbackRecord_recordLine (h _ List.mem_cons_self),
      ih fun r hr => h r (List.mem_cons_of_mem _ hr)]

theorem load_flatMap_write (h : ∀ record ∈ records, isSafeFeedbackRecord isValidUtf8 record) :
    loadRecordsFromStream isValidUtf8 strict (records.flatMap writeRecordToStream) =
      (true, records) := by
  have hlines : linesFrom newline [] (records.flatMap writeRecordToStream) =
      records.map recordLine :=
    linesFrom_flatMap fun record _ => newline_notMem_recordLine record
  rw [loadRecordsFromStream, hlines, loadLines_map_recordLine h]

theorem isSafe_of_mem_loadLines {lines : List Bytes}
    (h : record ∈ (loadLines isValidUtf8 strict lines).2) :
    isSafeFeedbackRecord isValidUtf8 record := by
  induction lines with
  | nil => cases h
  | cons line lines ih =>
    rw [loadLines] at h
    split at h
    · exact ih h
    split at h
    · split at h
      · cases h
      · exact ih h
    · rename_i parsed hparse
      rcases List.mem_cons.mp h with rfl | h
      · exact isSafe_of_parse hparse
      · exact ih h

theorem isSafe_of_mem_load (h : record ∈ loadFeedbackRecords isValidUtf8 env fs) :
    isSafeFeedbackRecord isValidUtf8 record := by
  rw [loadFeedbackRecords] at h
  split at h
  · cases h
  split at h
  · cases h
  split at h
  · exact isSafe_of_mem_loadLines h
  · cases h

end streams

section operations

variable {io : Outcome} {path : Bytes} {mode : ZenzFeedbackImportMode}

theorem path_ne_tmpPath : env.path ≠ env.tmpPath := by
  intro h
  have hlength := congrArg List.length h
  rw [Env.tmpPath, List.length_append, List.length_append] at hlength
  have hpos : 0 < (str ".tmp.").length := by decide
  omega

theorem load_congr (h : fs' env.path = fs env.path) :
    loadFeedbackRecords isValidUtf8 env fs' = loadFeedbackRecords isValidUtf8 env fs := by
  rw [loadFeedbackRecords, loadFeedbackRecords, h]

theorem writeFeedbackRecordsAtomically_spec
    (h : ∀ record ∈ records, isSafeFeedbackRecord isValidUtf8 record) :
    (writeFeedbackRecordsAtomically isValidUtf8 env io records fs).1 = true ∧
      (writeFeedbackRecordsAtomically isValidUtf8 env io records fs).2 env.path =
        (if records = [] then none else some (records.flatMap writeRecordToStream)) ∨
    (writeFeedbackRecordsAtomically isValidUtf8 env io records fs).1 = false ∧
      (writeFeedbackRecordsAtomically isValidUtf8 env io records fs).2 env.path = fs env.path := by
  rw [writeFeedbackRecordsAtomically, writeRecordsToStream_of_isSafe true h]
  split
  · exact Or.inr ⟨rfl, rfl⟩
  split
  · split
    · rename_i hnone
      exact Or.inl ⟨rfl, Option.isNone_iff_eq_none.mp hnone⟩
    split
    · exact Or.inl ⟨rfl, Function.update_self _ _ _⟩
    · exact Or.inr ⟨rfl, rfl⟩
  dsimp only
  split
  · exact Or.inr ⟨rfl, rfl⟩
  split
  · exact Or.inr ⟨rfl, rfl⟩
  split
  · exact Or.inr ⟨rfl, Function.update_of_ne path_ne_tmpPath _ _⟩
  · refine Or.inl ⟨rfl, (Function.update_of_ne path_ne_tmpPath _ _).trans ?_⟩
    exact Function.update_self _ _ _

def Outcome.Succeeds (io : Outcome) : Prop :=
  io.unlinked ∧ io.opened ∧ io.written ∧ io.synced ∧ io.renamed

theorem writeFeedbackRecordsAtomically_succeeds (hio : io.Succeeds) (hpath : env.path ≠ [])
    (h : ∀ record ∈ records, isSafeFeedbackRecord isValidUtf8 record) :
    (writeFeedbackRecordsAtomically isValidUtf8 env io records fs).1 = true := by
  obtain ⟨hunlinked, hopened, hwritten, hsynced, hrenamed⟩ := hio
  rw [writeFeedbackRecordsAtomically, writeRecordsToStream_of_isSafe true h, if_neg hpath]
  split
  · split <;> rfl
  · simp [hwritten, hsynced, hrenamed]

theorem load_of_written (h : fs' env.path =
      some ((loadFeedbackRecords isValidUtf8 env fs).flatMap writeRecordToStream) ∨
    loadFeedbackRecords isValidUtf8 env fs = [] ∧ fs' env.path = none) :
    loadFeedbackRecords isValidUtf8 env fs' = loadFeedbackRecords isValidUtf8 env fs := by
  obtain ⟨records, hrecords⟩ : ∃ records, loadFeedbackRecords isValidUtf8 env fs = records :=
    ⟨_, rfl⟩
  have hsafe : ∀ record ∈ records, isSafeFeedbackRecord isValidUtf8 record := by
    rintro record hmem
    rw [← hrecords] at hmem
    exact isSafe_of_mem_load hmem
  rw [hrecords] at h ⊢
  rw [loadFeedbackRecords] at hrecords ⊢
  split
  · rename_i hpath
    rwa [if_pos hpath] at hrecords
  rename_i hpath
  rw [if_neg hpath] at hrecords
  rcases h with hwritten | ⟨rfl, hnone⟩
  · rw [hwritten]
    dsimp only
    split
    · rw [load_flatMap_write hsafe]
    · rename_i hreadable
      rw [← hrecords]
      split
      · rfl
      · rw [if_neg hreadable]
  · rw [hnone]

theorem exportToFile_spec (h : exportToFile isValidUtf8 env io path fs = (true, fs')) :
    fs' = Function.update fs path
      (some ((loadFeedbackRecords isValidUtf8 env fs).flatMap writeRecordToStream)) := by
  rw [exportToFile] at h
  dsimp only at h
  rw [writeRecordsToStream_of_isSafe io.written fun _ => isSafe_of_mem_load] at h
  split at h
  · cases h
  split at h
  · cases h
  obtain ⟨hwritten, rfl⟩ := Prod.mk.inj h
  rw [if_pos hwritten]

theorem importFromFile_of_written {fs : Files} (hpath : path ≠ [])
    (hsafe : ∀ record ∈ records, isSafeFeedbackRecord isValidUtf8 record)
    (h : fs path = some (records.flatMap writeRecordToStream)) (hreadable : env.readable path) :
    importFromFile isValidUtf8 env io path .kReplace fs =
      writeFeedbackRecordsAtomically isValidUtf8 env io records fs := by
  rw [importFromFile, if_neg hpath, h]
  dsimp only
  rw [if_neg (not_not.mpr hreadable), load_flatMap_write hsafe]
  rfl

end operations

end ZenzFeedbackStore

end Mozkey.Session
