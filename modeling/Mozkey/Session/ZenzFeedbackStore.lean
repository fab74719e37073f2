import Mozkey.Base.Utf8
import Mozkey.Lib.Delimited

/-! The feedback store of `session/zenz_feedback_store.cc`: its records, their TSV form and the
operations on the feedback file. The check for UTF-8 is the one of a library and a parameter here,
as is the outcome of each system call. -/

namespace Mozkey.Session

open Storage Base Lib.Delimited

namespace ZenzFeedbackStore

def str (s : String) : Bytes := utf8 s.toList

abbrev tab : UInt8 := 0x09
abbrev newline : UInt8 := 0x0a
abbrev carriageReturn : UInt8 := 0x0d
abbrev backslash : UInt8 := 0x5c

def escapeChar (c : UInt8) : Bytes :=
  if c = tab then str "\\t"
  else if c = carriageReturn then str "\\r"
  else if c = newline then str "\\n"
  else if c = backslash then str "\\\\"
  else [c]

def escapeTsv (s : Bytes) : Bytes := s.flatMap escapeChar

def splitTab (line : Bytes) : List Bytes := splitFrom tab [] line

def kUtf8Bom : Bytes := [0xef, 0xbb, 0xbf]

def stripUtf8BomFromFirstField : List Bytes → List Bytes
  | [] => []
  | first :: fields =>
    (if kUtf8Bom <+: first then first.drop kUtf8Bom.length else first) :: fields

def unescapeChar (c : UInt8) : UInt8 :=
  if c = 0x74 then tab else if c = 0x72 then carriageReturn else if c = 0x6e then newline else c

def unescapeFrom : (escaping : Bool) → Bytes → Bytes
  | false, [] => []
  | true, [] => [backslash]
  | false, c :: s => if c = backslash then unescapeFrom true s else c :: unescapeFrom false s
  | true, c :: s => unescapeChar c :: unescapeFrom false s

def unescapeTsv (s : Bytes) : Bytes := unescapeFrom false s

def containsUnsafeTsvTextChar (s : Bytes) : Bool :=
  s.any fun c => c == tab || c == carriageReturn || c == newline

def knownContextClasses : List Bytes :=
  [str "empty", str "japanese_only", str "japanese_with_punctuation", str "mixed_japanese_ascii",
    str "symbol_or_other", str "ascii_or_digit", str "sensitive_like", str "legacy"]

def isKnownContextClass (contextClass : Bytes) : Bool := knownContextClasses.contains contextClass

def normalizeContextClass (contextClass : Bytes) : Bytes :=
  if contextClass = [] then str "empty" else contextClass

structure ParsedFeedbackRecord where
  action : Bytes
  key : Bytes
  contextClass : Bytes
  value : Bytes
  reason : Bytes
  deriving DecidableEq

def kMaxKeyBytes : Nat := 512
def kMaxContextClassBytes : Nat := 64
def kMaxValueBytes : Nat := 512
def kMaxReasonBytes : Nat := 128

section records

variable (isValidUtf8 : Bytes → Bool)

def isSafeFeedbackRecord (record : ParsedFeedbackRecord) : Bool :=
  if record.action ≠ str "accepted" ∧ record.action ≠ str "rejected" then false
  else if record.key = [] ∨ record.value = [] then false
  else if ¬ isKnownContextClass record.contextClass then false
  else if kMaxKeyBytes < record.key.length ∨
      kMaxContextClassBytes < record.contextClass.length ∨
      kMaxValueBytes < record.value.length ∨ kMaxReasonBytes < record.reason.length then false
  else if containsUnsafeTsvTextChar record.action ∨ containsUnsafeTsvTextChar record.key ∨
      containsUnsafeTsvTextChar record.contextClass ∨ containsUnsafeTsvTextChar record.value ∨
      containsUnsafeTsvTextChar record.reason then false
  else isValidUtf8 record.key && isValidUtf8 record.contextClass && isValidUtf8 record.value &&
    isValidUtf8 record.reason

def checked (record : ParsedFeedbackRecord) : Option ParsedFeedbackRecord :=
  if isSafeFeedbackRecord isValidUtf8 record then some record else none

def parseFeedbackRecord (fields : List Bytes) : Option ParsedFeedbackRecord :=
  if 5 ≤ fields.length ∧ fields.getD 0 [] = str "v2" then
    checked isValidUtf8
      { action := unescapeTsv (fields.getD 1 [])
        key := unescapeTsv (fields.getD 2 [])
        contextClass := normalizeContextClass (unescapeTsv (fields.getD 3 []))
        value := unescapeTsv (fields.getD 4 [])
        reason := if 6 ≤ fields.length then unescapeTsv (fields.getD 5 []) else [] }
  else if 4 ≤ fields.length ∧
      (fields.getD 0 [] = str "accepted" ∨ fields.getD 0 [] = str "rejected") then
    checked isValidUtf8
      { action := unescapeTsv (fields.getD 0 [])
        key := unescapeTsv (fields.getD 1 [])
        contextClass := str "legacy"
        value := unescapeTsv (fields.getD 3 [])
        reason := if 5 ≤ fields.length then unescapeTsv (fields.getD 4 []) else [] }
  else none

def recordLine (record : ParsedFeedbackRecord) : Bytes :=
  str "v2" ++ tab :: (escapeTsv record.action ++ tab :: (escapeTsv record.key ++ tab ::
    (escapeTsv (normalizeContextClass record.contextClass) ++ tab ::
      (escapeTsv record.value ++ tab :: escapeTsv record.reason))))

def writeRecordToStream (record : ParsedFeedbackRecord) : Bytes := recordLine record ++ [newline]

/-- What is returned and what has been given to the stream, which is `good` after the flush or
not. -/
def writeRecordsToStream (good : Bool) : List ParsedFeedbackRecord → Bool × Bytes
  | [] => (good, [])
  | record :: records =>
    if isSafeFeedbackRecord isValidUtf8 record then
      let (ok, output) := writeRecordsToStream good records
      (ok, writeRecordToStream record ++ output)
    else (false, [])

/-- The loop of `LoadRecordsFromStream`; without `strict` it goes on after a bad line and returns
true in the end. -/
def loadLines (strict : Bool) : List Bytes → Bool × List ParsedFeedbackRecord
  | [] => (true, [])
  | line :: lines =>
    if line = [] then loadLines strict lines
    else
      match parseFeedbackRecord isValidUtf8 (stripUtf8BomFromFirstField (splitTab line)) with
      | none => if strict then (false, []) else loadLines strict lines
      | some record =>
        let (ok, records) := loadLines strict lines
        (ok, record :: records)

def loadRecordsFromStream (strict : Bool) (input : Bytes) : Bool × List ParsedFeedbackRecord :=
  loadLines isValidUtf8 strict (linesFrom newline [] input)

end records

abbrev Files := Bytes → Option Bytes

/-- What the calls of a process find: the feedback directory, which is empty where there is none
that can be written, the number of the process as a text, and the files that can be read. -/
structure Env where
  dir : Bytes
  pid : Bytes
  readable : Bytes → Bool

def Env.path (env : Env) : Bytes := if env.dir = [] then [] else env.dir ++ str "/zenz_feedback.tsv"

def Env.tmpPath (env : Env) : Bytes := env.path ++ str ".tmp." ++ env.pid

/-- The outcomes of the system calls of an operation, and what is left in the file being written
after a failure. -/
structure Outcome where
  unlinked : Bool
  opened : Bool
  written : Bool
  synced : Bool
  renamed : Bool
  left : Option Bytes

inductive ZenzFeedbackImportMode where
  | kAppend
  | kReplace

section files

variable (isValidUtf8 : Bytes → Bool) (env : Env)

def loadFeedbackRecords (fs : Files) : List ParsedFeedbackRecord :=
  if env.path = [] then []
  else
    match fs env.path with
    | none => []
    | some input =>
      if env.readable env.path then (loadRecordsFromStream isValidUtf8 false input).2 else []

def writeFeedbackRecordsAtomically (io : Outcome) (records : List ParsedFeedbackRecord)
    (fs : Files) : Bool × Files :=
  if env.path = [] then (false, fs)
  else if records = [] then
    if (fs env.path).isNone then (true, fs)
    else if io.unlinked then (true, Function.update fs env.path none)
    else (false, fs)
  else
    let (ok, data) := writeRecordsToStream isValidUtf8 true records
    if ¬ ok then (false, fs)
    else if ¬ io.opened then (false, fs)
    else if ¬ io.written ∨ ¬ io.synced ∨ ¬ io.renamed then
      (false, Function.update fs env.tmpPath io.left)
    else (true, Function.update (Function.update fs env.path (some data)) env.tmpPath none)

def exportToFile (io : Outcome) (path : Bytes) (fs : Files) : Bool × Files :=
  if path = [] then (false, fs)
  else if ¬ io.opened then (false, fs)
  else
    let records := loadFeedbackRecords isValidUtf8 env fs
    let (ok, data) := writeRecordsToStream isValidUtf8 io.written records
    (ok, Function.update fs path (if io.written then some data else io.left))

def importFromFile (io : Outcome) (path : Bytes) (mode : ZenzFeedbackImportMode) (fs : Files) :
    Bool × Files :=
  if path = [] then (false, fs)
  else
    match fs path with
    | none => (false, fs)
    | some input =>
      if ¬ env.readable path then (false, fs)
      else
        let (ok, importedRecords) := loadRecordsFromStream isValidUtf8 true input
        if ¬ ok then (false, fs)
        else
          let newRecords := match mode with
            | .kAppend => loadFeedbackRecords isValidUtf8 env fs
            | .kReplace => []
          writeFeedbackRecordsAtomically isValidUtf8 env io (newRecords ++ importedRecords) fs

def isEntry (key contextClass value : Bytes) (record : ParsedFeedbackRecord) : Bool :=
  record.key = key && record.contextClass = normalizeContextClass contextClass &&
    record.value = value

def deleteEntry (io : Outcome) (key contextClass value : Bytes) (fs : Files) : Bool × Files :=
  let records := loadFeedbackRecords isValidUtf8 env fs
  if records.any (isEntry key contextClass value) then
    writeFeedbackRecordsAtomically isValidUtf8 env io
      (records.filter fun record => ¬ isEntry key contextClass value record) fs
  else (true, fs)

end files

end ZenzFeedbackStore

end Mozkey.Session
