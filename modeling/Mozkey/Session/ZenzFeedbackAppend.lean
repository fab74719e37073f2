import Mozkey.Session.ZenzFeedbackProcesses

/-! `AppendRecord` of `session/zenz_feedback_store.cc`, on a feedback file of any content: what a load
finds behind it. -/

namespace Mozkey.Session

open Storage Base Lib.Delimited

namespace ZenzFeedbackStore

section append

variable (isValidUtf8 : Bytes → Bool) (env : Env)

def appendRecord (io : Outcome) (action key contextClass value reason : Bytes) (fs : Files) : Files :=
  let record : ParsedFeedbackRecord :=
    { action := action, key := key, contextClass := normalizeContextClass contextClass
      value := value, reason := reason }
  if ¬ isSafeFeedbackRecord isValidUtf8 record then fs
  else if env.path = [] then fs
  else if ¬ io.opened then fs
  else if ¬ io.written then Function.update fs env.path io.left
  else Function.update fs env.path (some ((fs env.path).getD [] ++ writeRecordToStream record))

/-- The record that the loop of `LoadRecordsFromStream` finds in a line. -/
def lineRecord (line : Bytes) : Option ParsedFeedbackRecord :=
  if line = [] then none
  else parseFeedbackRecord isValidUtf8 (stripUtf8BomFromFirstField (splitTab line))

end append

variable {isValidUtf8 : Bytes → Bool} {env : Env} {fs : Files} {io : Outcome}
  {record : ParsedFeedbackRecord}

theorem load_line {line : Bytes} (h : newline ∉ line) :
    (loadRecordsFromStream isValidUtf8 false (line ++ [newline])).2 =
      (lineRecord isValidUtf8 line).toList := by
  rw [loadRecordsFromStream, linesFrom_append h, linesFrom, if_pos rfl, List.nil_append, loadLines,
    lineRecord]
  split
  · rfl
  · cases parseFeedbackRecord isValidUtf8 (stripUtf8BomFromFirstField (splitTab line)) <;> rfl

theorem load_unfinished {line : Bytes} (h : newline ∉ line) :
    (loadRecordsFromStream isValidUtf8 false line).2 = (lineRecord isValidUtf8 line).toList := by
  by_cases hnil : line = []
  · rw [hnil]
    rfl
  · rw [loadRecordsFromStream, linesFrom_of_notMem h, List.nil_append, if_neg hnil, loadLines, lineRecord,
      if_neg hnil, if_neg hnil]
    cases parseFeedbackRecord isValidUtf8 (stripUtf8BomFromFirstField (splitTab line)) <;> rfl

theorem load_file {input : Bytes} (hpath : env.path ≠ []) (hreadable : env.readable env.path)
    (hfile : (fs env.path).getD [] = input) :
    loadFeedbackRecords isValidUtf8 env fs = (loadRecordsFromStream isValidUtf8 false input).2 := by
  rw [loadFeedbackRecords, if_neg hpath]
  rcases hlook : fs env.path with _ | content
  · rw [hlook, Option.getD_none] at hfile
    rw [← hfile]
    rfl
  · rw [hlook, Option.getD_some] at hfile
    dsimp only
    rw [if_pos hreadable, hfile]

theorem load_append_unfinished {whole torn : Bytes} (hwhole : WholeLines newline whole)
    (htorn : newline ∉ torn) (record : ParsedFeedbackRecord) :
    (loadRecordsFromStream isValidUtf8 false (whole ++ torn ++ writeRecordToStream record)).2 =
      (loadRecordsFromStream isValidUtf8 false whole).2 ++
        (lineRecord isValidUtf8 (torn ++ recordLine record)).toList := by
  have hline : newline ∉ torn ++ recordLine record := by
    rw [List.mem_append]
    exact not_or.mpr ⟨htorn, newline_notMem_recordLine record⟩
  rw [List.append_assoc, load_append hwhole, writeRecordToStream, ← List.append_assoc, load_line hline]

theorem lineRecord_recordLine (hsafe : isSafeFeedbackRecord isValidUtf8 record) :
    lineRecord isValidUtf8 (recordLine record) = some record := by
  rw [lineRecord, if_neg (recordLine_ne_nil record), parseFeedbackRecord_recordLine hsafe]

theorem toList_eq_append_iff {α : Type*} (before after : Option α) (a : α) :
    after.toList = before.toList ++ [a] ↔ before = none ∧ after = some a := by
  cases before <;> cases after <;> simp

/-- A load after `AppendRecord` returns the records that it returned before and then the appended one
exactly if the file was empty or ended with a newline, or its unfinished last line was no record and,
with the line of the appended record behind it, reads as that record. -/
theorem load_appendRecord_iff (hpath : env.path ≠ []) (hreadable : env.readable env.path)
    (hopened : io.opened) (hwritten : io.written)
    (hsafe : isSafeFeedbackRecord isValidUtf8 record) :
    loadFeedbackRecords isValidUtf8 env (appendRecord isValidUtf8 env io record.action record.key
        record.contextClass record.value record.reason fs) =
      loadFeedbackRecords isValidUtf8 env fs ++ [record] ↔
    WholeLines newline ((fs env.path).getD []) ∨
      lineRecord isValidUtf8 (unfinishedFrom newline [] ((fs env.path).getD [])) = none ∧
      lineRecord isValidUtf8 (unfinishedFrom newline [] ((fs env.path).getD []) ++
        recordLine record) = some record := by
  obtain ⟨input, hinput⟩ : ∃ input, (fs env.path).getD [] = input := ⟨_, rfl⟩
  have happended : appendRecord isValidUtf8 env io record.action record.key record.contextClass
      record.value record.reason fs =
        Function.update fs env.path (some (input ++ writeRecordToStream record)) := by
    rw [appendRecord, normalizeContextClass_of_isSafe hsafe, hinput, if_neg (not_not.mpr hsafe), if_neg hpath, if_neg (not_not.mpr hopened),
      if_neg (not_not.mpr hwritten)]
  have hafter := @load_file isValidUtf8 env
    (Function.update fs env.path (some (input ++ writeRecordToStream record))) _ hpath hreadable
    (by rw [Function.update_self, Option.getD_some])
  obtain ⟨whole, hwhole, hsplit, htorn⟩ := @unfinishedFrom_spec _ newline [] _ List.not_mem_nil input
  rw [List.nil_append] at hsplit
  have hfinished : WholeLines newline input → unfinishedFrom newline [] input = [] :=
    WholeLines.unfinished
  rw [happended, hafter, load_file hpath hreadable hinput, hinput]
  generalize unfinishedFrom newline [] input = torn at hsplit htorn hfinished ⊢
  rw [hsplit, load_append_unfinished hwhole htorn, load_append hwhole, load_unfinished htorn,
    List.append_assoc, List.append_cancel_left_eq, toList_eq_append_iff, ← hsplit]
  constructor
  · exact Or.inr
  · rintro (hlines | hfused)
    · obtain rfl := hfinished hlines
      exact ⟨rfl, by rw [List.nil_append, lineRecord_recordLine hsafe]⟩
    · exact hfused

/-- A store whose directory is `/d`, and calls of which none fails. -/
def plainEnv : Env := { dir := str "/d", pid := str "1", readable := fun _ => true }

def plainOutcome : Outcome :=
  { unlinked := true, opened := true, written := true, synced := true, renamed := true, left := none }

/-- A file that holds a byte order mark only. -/
theorem load_appendRecord_iff_bom :
    loadFeedbackRecords (fun _ => true) plainEnv (appendRecord (fun _ => true) plainEnv plainOutcome
        (acceptedRecord 0x61).action (acceptedRecord 0x61).key (acceptedRecord 0x61).contextClass
        (acceptedRecord 0x61).value (acceptedRecord 0x61).reason fun _ => some kUtf8Bom) =
      loadFeedbackRecords (fun _ => true) plainEnv (fun _ => some kUtf8Bom) ++ [acceptedRecord 0x61] :=
  (@load_appendRecord_iff (fun _ => true) plainEnv (fun _ => some kUtf8Bom) plainOutcome
    (acceptedRecord 0x61) (by decide) rfl rfl rfl (by decide)).mpr (Or.inr (by decide))

/-- A byte without a newline behind it makes the appended line another one. -/
theorem not_load_appendRecord :
    ¬ ∀ (isValidUtf8 : Bytes → Bool) (env : Env) (io : Outcome) (fs : Files)
      (record : ParsedFeedbackRecord), env.path ≠ [] → env.readable env.path → io.opened →
      io.written → isSafeFeedbackRecord isValidUtf8 record →
      loadFeedbackRecords isValidUtf8 env (appendRecord isValidUtf8 env io record.action record.key
          record.contextClass record.value record.reason fs) =
        loadFeedbackRecords isValidUtf8 env fs ++ [record] := by
  intro hall
  have hload := hall (fun _ => true) plainEnv plainOutcome (fun _ => some [0x78])
    (acceptedRecord 0x61) (by decide) rfl rfl rfl (by decide)
  exact absurd hload (by decide)

end ZenzFeedbackStore

end Mozkey.Session
