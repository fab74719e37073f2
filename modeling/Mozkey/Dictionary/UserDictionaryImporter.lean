import Mozkey.Base.SplitCsv
import Mozkey.Dictionary.UserDictionaryUtil
import Mozkey.Lib.Delimited

/-! The text that `ExportDictionary` of `dictionary/user_dictionary_storage.cc` writes, and what
`ImportFromTextLineIterator` of `dictionary/user_dictionary_importer.cc` reads from a text: the guess of
the format by the first line, the comment lines, the fields and the conversion of each entry. -/

namespace Mozkey.Dictionary.UserDictionary

open Storage Base

/-- The tables of the POS, the normalizers, `absl::HashOf` and `SimpleAtoi`.  A POS of another IME may
be one whose words are left out, for which the map has no type. -/
structure ImportModules where
  getStringPosType : PosType → Bytes
  normalizeReading : Bytes → Bytes
  normalizePos : Bytes → Bytes
  posMap : Bytes → Option (Option PosType)
  hashOf : Bytes → Bytes → PosType → UInt64
  simpleAtoi : Bytes → Int

inductive ImeType where
  | imeAutoDetect
  | mozc
  | msime
  | atok
  | kotoeri
  | gboardV1
  | numImes
  deriving DecidableEq

structure RawEntry where
  key : Bytes
  value : Bytes
  pos : Bytes
  comment : Bytes := []
  deriving DecidableEq

section exporter

variable (modules : ImportModules)

def exportLine (entry : Entry) : Bytes :=
  entry.key ++ 0x09 :: (entry.value ++ 0x09 ::
    (modules.getStringPosType entry.posType ++ 0x09 :: entry.comment))

def exportDictionary (dic : List Entry) : Bytes :=
  dic.flatMap fun entry => exportLine modules entry ++ [0x0a]

end exporter

section reader

/-- `StringTextLineIterator::Next` where there is a line: the line and the rest. -/
def nextLine : Bytes → Bytes × Bytes
  | [] => ([], [])
  | b :: data =>
    if b = 0x0a then ([], data)
    else if b = 0x0d then ([], if data.head? = some 0x0a then data.tail else data)
    else ((b :: (nextLine data).1), (nextLine data).2)

def linesLoop : Nat → Bytes → List Bytes
  | 0, _ => []
  | fuel + 1, data =>
    if data = [] then [] else (nextLine data).1 :: linesLoop fuel (nextLine data).2

/-- The lines that the iterator gives one after another. -/
def linesOf (data : Bytes) : List Bytes := linesLoop data.length data

def msimeHeader : Bytes :=
  [0x21, 0x6d, 0x69, 0x63, 0x72, 0x6f, 0x73, 0x6f, 0x66, 0x74, 0x20, 0x69, 0x6d, 0x65]

def dicutHeader : Bytes := [0x21, 0x21, 0x64, 0x69, 0x63, 0x75, 0x74]

def atokHeader : Bytes :=
  [0x21, 0x21, 0x61, 0x74, 0x6f, 0x6b, 0x5f, 0x74, 0x61, 0x6e, 0x67, 0x6f, 0x5f, 0x74, 0x65, 0x78, 0x74,
    0x5f, 0x68, 0x65, 0x61, 0x64, 0x65, 0x72]

def gboardHeader : Bytes :=
  [0x23, 0x20, 0x67, 0x62, 0x6f, 0x61, 0x72, 0x64, 0x20, 0x64, 0x69, 0x63, 0x74, 0x69, 0x6f, 0x6e, 0x61,
    0x72, 0x79, 0x20, 0x76, 0x65, 0x72, 0x73, 0x69, 0x6f, 0x6e, 0x3a, 0x31]

def guessIMEType (modules : ImportModules) (line : Bytes) : ImeType :=
  let lower := lowerString line
  if line = [] then .numImes
  else if msimeHeader <+: lower then .msime
  else if dicutHeader <+: lower ∧ 7 < lower.length then
    if 11 ≤ modules.simpleAtoi (lower.drop 7) then .atok else .numImes
  else if atokHeader <+: lower then .atok
  else if line.head? = some 0x22 ∧ line.getLast? = some 0x22 ∧ (0x09 : UInt8) ∉ line then .kotoeri
  else if gboardHeader <+: lower then .gboardV1
  else if line.head? = some 0x23 ∨ (0x09 : UInt8) ∈ line then .mozc
  else .numImes

def determineFinalIMEType (userImeType guessedImeType : ImeType) : ImeType :=
  if userImeType = .imeAutoDetect then guessedImeType
  else if userImeType = .mozc then if guessedImeType ≠ .kotoeri then userImeType else .numImes
  else if guessedImeType = userImeType then userImeType
  else .numImes

/-- The type that the constructor of `TextInputIterator` settles on. -/
def textImeType (modules : ImportModules) (imeType : ImeType) (data : Bytes) : ImeType :=
  if data = [] then .numImes
  else determineFinalIMEType imeType (guessIMEType modules (nextLine data).1)

def isCommentLine (imeType : ImeType) (line : Bytes) : Bool :=
  ((imeType = .msime ∨ imeType = .atok) ∧ line.head? = some 0x21) ∨
    ((imeType = .mozc ∨ imeType = .gboardV1) ∧ line.head? = some 0x23) ∨
    (imeType = .kotoeri ∧ [0x2f, 0x2f] <+: line)

def noPosPrefix : Bytes := [0xe5, 0x93, 0x81, 0xe8, 0xa9, 0x9e, 0xe3, 0x81, 0xaa, 0xe3, 0x81, 0x97, 0x3a]

/-- One round of `TextInputIterator::Next`: the entry of a line, if it has one; nothing where
`SplitCSV` has no result. -/
def readLine (imeType : ImeType) (line : Bytes) : Option (Option RawEntry) :=
  let line := chopReturns line
  if line = [] then some none
  else if isCommentLine imeType line then some none
  else if imeType = .kotoeri then
    (Util.splitCSV line).map fun values =>
      match values with
      | key :: value :: pos :: _ => some { key, value, pos }
      | _ => none
  else if imeType = .numImes ∨ imeType = .imeAutoDetect then some none
  else
    match Lib.Delimited.splitFrom 0x09 [] line with
    | key :: value :: third :: rest =>
      some (some
        { key
          value
          pos := if imeType = .gboardV1 then noPosPrefix ++ third else third
          comment := rest.headD [] })
    | _ => some none

def rawEntries (imeType : ImeType) : List Bytes → Option (List RawEntry)
  | [] => some []
  | line :: lines => do
    let raw ← readLine imeType line
    let raws ← rawEntries imeType lines
    some (raw.toList ++ raws)

end reader

section importer

variable (modules : ImportModules)

def splitPosAndLocale (pos : Bytes) : Bytes × Bytes :=
  (pos.takeWhile (· ≠ 0x3a), (pos.dropWhile (· ≠ 0x3a)).drop 1)

def consumeSuffix (pos : Bytes) (mark : UInt8) : Bytes :=
  if pos.getLast? = some mark then pos.dropLast else pos

/-- The beginning of `ConvertEntry`: the type and the locale that a POS stands for. -/
def convertPos (rawPos : Bytes) : Option (PosType × Bytes) :=
  if rawPos = [] then none
  else
    let (pos, locale) := splitPosAndLocale (modules.normalizePos rawPos)
    let pos := consumeSuffix (consumeSuffix pos 0x24) 0x2a -- "$" and "*"
    match modules.posMap pos with
    | some (some posType) => some (posType, locale)
    | _ => none

def convertEntry (raw : RawEntry) : Option Entry := do
  let (posType, locale) ← convertPos modules raw.pos
  let entry : Entry :=
    { key := modules.normalizeReading raw.key
      value := raw.value
      pos := some posType
      comment := raw.comment
      locale }
  if validateEntry entry = .ok then some entry else none

def kMaxEntrySize : Nat := 1000000

def isDictionaryFull (dic : List Entry) : Bool := dic.length ≥ kMaxEntrySize

def hashOfEntry (entry : Entry) : UInt64 := modules.hashOf entry.key entry.value entry.posType

def importLoop : List RawEntry → (existent : List UInt64) → (ret : ExtendedErrorCode) →
    (userDic : List Entry) → ExtendedErrorCode × List Entry
  | [], _, ret, userDic => (ret, userDic)
  | raw :: raws, existent, ret, userDic =>
    if isDictionaryFull userDic then (.importTooManyWords, userDic)
    else if raw.key = [] ∧ raw.value = [] ∧ raw.comment = [] then importLoop raws existent ret userDic
    else
      match convertEntry modules raw with
      | none => importLoop raws existent .importInvalidEntries userDic
      | some entry =>
        if hashOfEntry modules entry ∈ existent then importLoop raws existent ret userDic
        else importLoop raws (hashOfEntry modules entry :: existent) ret (userDic ++ [entry])

def importFromText (imeType : ImeType) (data : Bytes) (userDic : List Entry) :
    Option (ExtendedErrorCode × List Entry) :=
  let imeType := textImeType modules imeType data
  if imeType = .numImes then some (.importNotSupported, userDic)
  else (rawEntries imeType (linesOf data)).map fun raws =>
    importLoop modules raws (userDic.map (hashOfEntry modules)) .ok userDic

end importer

structure Backup (modules : ImportModules) (dic : List Entry) : Prop where
  nonempty : dic ≠ []
  below : dic.length < kMaxEntrySize
  valid : ∀ entry ∈ dic, validateEntry entry = .ok
  normalized : ∀ entry ∈ dic, modules.normalizeReading entry.key = entry.key
  no_locale : ∀ entry ∈ dic, entry.locale = []
  distinct : dic.Pairwise fun a b => (a.key, a.value, a.pos) ≠ (b.key, b.value, b.pos)
  no_collision : ∀ a ∈ dic, ∀ b ∈ dic, hashOfEntry modules a = hashOfEntry modules b →
    (a.key, a.value, a.pos) = (b.key, b.value, b.pos)

/-- The names of the POS are words of one line, and the map sends each of them back. -/
structure ImportModules.Sound (modules : ImportModules) : Prop where
  name_plain : ∀ pos, (0x09 : UInt8) ∉ modules.getStringPosType pos ∧
    (0x0a : UInt8) ∉ modules.getStringPosType pos ∧ (0x0d : UInt8) ∉ modules.getStringPosType pos
  name_back : ∀ pos, convertPos modules (modules.getStringPosType pos) = some (pos, [])

/-- The import of what was exported, to a dictionary without entries, gives the entries back. -/
def Restores (modules : ImportModules) (imeType : ImeType) (dic : List Entry) : Prop :=
  importFromText modules imeType (exportDictionary modules dic) [] = some (.ok, dic)

def foreignHeaders : List Bytes := [msimeHeader, dicutHeader, atokHeader]

/-- No reading begins with `#`, and where the format is guessed, the first reading does not begin like
a file of another IME. -/
def NotTakenForOther (imeType : ImeType) (dic : List Entry) : Prop :=
  (∀ entry ∈ dic, entry.key.head? ≠ some 0x23) ∧
    (imeType = .imeAutoDetect → ∀ entry, dic.head? = some entry →
      ∀ header ∈ foreignHeaders, ¬header <+: lowerString entry.key)

/-! The lines of an exported dictionary. -/

section lines

variable {modules : ImportModules} {line rest : Bytes}

theorem nextLine_append (hlf : (0x0a : UInt8) ∉ line) (hcr : (0x0d : UInt8) ∉ line) :
    nextLine (line ++ 0x0a :: rest) = (line, rest) := by
  induction line with
  | nil => rw [List.nil_append, nextLine, if_pos rfl]
  | cons b line ih =>
    obtain ⟨hb, hlf⟩ := not_or.mp (mt List.mem_cons.mpr hlf)
    obtain ⟨hb', hcr⟩ := not_or.mp (mt List.mem_cons.mpr hcr)
    rw [List.cons_append, nextLine, if_neg (Ne.symm hb), if_neg (Ne.symm hb'), ih hlf hcr]

theorem linesLoop_flatMap {α : Type} {f : α → Bytes} {xs : List α}
    (h : ∀ x ∈ xs, (0x0a : UInt8) ∉ f x ∧ (0x0d : UInt8) ∉ f x) {fuel : Nat}
    (hfuel : (xs.flatMap fun x => f x ++ [0x0a]).length ≤ fuel) :
    linesLoop fuel (xs.flatMap fun x => f x ++ [0x0a]) = xs.map f := by
  induction xs generalizing fuel with
  | nil => cases fuel <;> rfl
  | cons x xs ih =>
    obtain ⟨hlf, hcr⟩ := h x List.mem_cons_self
    rw [List.flatMap_cons, List.append_assoc, List.singleton_append] at hfuel ⊢
    cases fuel with
    | zero => simp at hfuel
    | succ fuel =>
      rw [List.length_append, List.length_cons] at hfuel
      rw [linesLoop, if_neg (by simp), nextLine_append hlf hcr, List.map_cons]
      exact congrArg _ (ih (fun y hy => h y (List.mem_cons_of_mem _ hy)) (by omega))

structure PlainEntry (modules : ImportModules) (entry : Entry) : Prop where
  key_ne : entry.key ≠ []
  tabs : (0x09 : UInt8) ∉ entry.key ∧ (0x09 : UInt8) ∉ entry.value ∧
    (0x09 : UInt8) ∉ modules.getStringPosType entry.posType ∧ (0x09 : UInt8) ∉ entry.comment
  line_lf : (0x0a : UInt8) ∉ exportLine modules entry
  line_cr : (0x0d : UInt8) ∉ exportLine modules entry

theorem plainEntry_of_valid (hm : modules.Sound) {entry : Entry} (h : validateEntry entry = .ok) :
    PlainEntry modules entry := by
  have hv := (validateEntry_iff entry).mp h
  obtain ⟨htab, hlf, hcr⟩ := hm.name_plain entry.posType
  have hmem : ∀ b : UInt8, b ≠ 0x09 → b ∉ entry.key → b ∉ entry.value →
      b ∉ modules.getStringPosType entry.posType → b ∉ entry.comment →
      b ∉ exportLine modules entry := by
    intro b hb h₁ h₂ h₃ h₄
    simp [exportLine, hb, h₁, h₂, h₃, h₄]
  exact ⟨hv.key_ne, ⟨hv.key.no_tab, hv.value.no_tab, htab, hv.comment.no_tab⟩,
    hmem _ (by decide) hv.key.no_lf hv.value.no_lf hlf hv.comment.no_lf,
    hmem _ (by decide) hv.key.no_cr hv.value.no_cr hcr hv.comment.no_cr⟩

theorem linesOf_exportDictionary {dic : List Entry} (h : ∀ entry ∈ dic, PlainEntry modules entry) :
    linesOf (exportDictionary modules dic) = dic.map (exportLine modules) :=
  linesLoop_flatMap (fun entry hentry => ⟨(h entry hentry).line_lf, (h entry hentry).line_cr⟩) le_rfl

theorem splitFrom_exportLine {entry : Entry} (h : PlainEntry modules entry) :
    Lib.Delimited.splitFrom 0x09 [] (exportLine modules entry) =
      [entry.key, entry.value, modules.getStringPosType entry.posType, entry.comment] := by
  obtain ⟨hkey, hvalue, hname, hcomment⟩ := h.tabs
  rw [exportLine, Lib.Delimited.splitFrom_append hkey, Lib.Delimited.splitFrom_append hvalue,
    Lib.Delimited.splitFrom_append hname, Lib.Delimited.splitFrom_of_notMem hcomment]
  rfl

theorem head_exportLine {entry : Entry} (h : PlainEntry modules entry) :
    (exportLine modules entry).head? = entry.key.head? := by
  rw [exportLine, List.head?_append_of_ne_nil _ h.key_ne]

def rawOf (modules : ImportModules) (imeType : ImeType) (entry : Entry) : RawEntry :=
  { key := entry.key
    value := entry.value
    pos :=
      if imeType = .gboardV1 then noPosPrefix ++ modules.getStringPosType entry.posType
      else modules.getStringPosType entry.posType
    comment := entry.comment }

def IsTabbed (imeType : ImeType) : Prop :=
  imeType = .mozc ∨ imeType = .msime ∨ imeType = .atok ∨ imeType = .gboardV1

theorem readLine_exportLine {imeType : ImeType} (htype : IsTabbed imeType) {entry : Entry}
    (h : PlainEntry modules entry) :
    readLine imeType (exportLine modules entry) =
      some (if isCommentLine imeType (exportLine modules entry) then none
        else some (rawOf modules imeType entry)) := by
  have hchop : chopReturns (exportLine modules entry) = exportLine modules entry := by
    rw [chopReturns, List.rdropWhile_eq_self_iff]
    intro hne hlast
    have hmem := List.getLast_mem hne
    rcases of_decide_eq_true hlast with heq | heq
    · exact h.line_cr (heq ▸ hmem)
    · exact h.line_lf (heq ▸ hmem)
  have hne : exportLine modules entry ≠ [] := by
    rw [exportLine]
    simp
  have hkotoeri : imeType ≠ .kotoeri ∧ ¬(imeType = .numImes ∨ imeType = .imeAutoDetect) := by
    rcases htype with rfl | rfl | rfl | rfl <;> decide
  rw [readLine, hchop, if_neg hne, splitFrom_exportLine h, if_neg hkotoeri.1, if_neg hkotoeri.2]
  split <;> rfl

theorem rawEntries_exported {imeType : ImeType} (htype : IsTabbed imeType) {dic : List Entry}
    (h : ∀ entry ∈ dic, PlainEntry modules entry) :
    rawEntries imeType (dic.map (exportLine modules)) =
      some ((dic.filter fun entry => !isCommentLine imeType (exportLine modules entry)).map
        (rawOf modules imeType)) := by
  induction dic with
  | nil => rfl
  | cons entry dic ih =>
    rw [List.map_cons, rawEntries, readLine_exportLine htype (h entry List.mem_cons_self),
      ih fun e he => h e (List.mem_cons_of_mem _ he)]
    by_cases hcomment : isCommentLine imeType (exportLine modules entry) = true
    · simp [hcomment]
    · simp [hcomment]

end lines

/-! The import of the entries. -/

section imports

variable {modules : ImportModules}

theorem length_importLoop (raws : List RawEntry) (existent : List UInt64) (ret : ExtendedErrorCode)
    (userDic : List Entry) :
    (importLoop modules raws existent ret userDic).2.length ≤ userDic.length + raws.length := by
  induction raws generalizing existent ret userDic with
  | nil => exact le_rfl
  | cons raw raws ih =>
    rw [importLoop, List.length_cons]
    split
    · exact Nat.le_add_right _ _
    split
    · exact (ih _ _ _).trans (by omega)
    split
    · exact (ih _ _ _).trans (by omega)
    · split
      · exact (ih _ _ _).trans (by omega)
      · refine (ih _ _ _).trans ?_
        rw [List.length_append, List.length_singleton]
        omega

theorem convertEntry_rawOf (hm : modules.Sound) {entry : Entry} (hvalid : validateEntry entry = .ok)
    (hkey : modules.normalizeReading entry.key = entry.key) (hlocale : entry.locale = []) :
    convertEntry modules (rawOf modules .mozc entry) = some entry := by
  have hpos : entry.pos = some entry.posType := by
    cases h : entry.pos with
    | none => exact absurd h ((validateEntry_iff entry).mp hvalid).pos
    | some pos => rw [Entry.posType, h, Option.getD_some]
  have hentry : Entry.mk (modules.normalizeReading entry.key) entry.value entry.comment
      (some entry.posType) [] = entry := by
    rw [hkey, ← hpos, ← hlocale]
  have hback : convertPos modules (rawOf modules .mozc entry).pos = some (entry.posType, []) :=
    hm.name_back entry.posType
  rw [convertEntry, hback, Option.bind_eq_bind, Option.bind_some]
  dsimp only [rawOf]
  rw [hentry, if_pos hvalid]

theorem importLoop_all {f : Entry → RawEntry} {dic : List Entry} (existent : List UInt64)
    (userDic : List Entry) (hconvert : ∀ entry ∈ dic, convertEntry modules (f entry) = some entry)
    (hkey : ∀ entry ∈ dic, (f entry).key ≠ [])
    (hnew : ∀ entry ∈ dic, hashOfEntry modules entry ∉ existent)
    (hhash : dic.Pairwise fun a b => hashOfEntry modules a ≠ hashOfEntry modules b)
    (hbelow : userDic.length + dic.length ≤ kMaxEntrySize) :
    importLoop modules (dic.map f) existent .ok userDic = (.ok, userDic ++ dic) := by
  induction dic generalizing existent userDic with
  | nil => rw [List.map_nil, importLoop, List.append_nil]
  | cons entry dic ih =>
    obtain ⟨hfirst, hhash⟩ := List.pairwise_cons.mp hhash
    rw [List.length_cons] at hbelow
    rw [List.map_cons, importLoop, isDictionaryFull, if_neg (by simp; omega),
      if_neg fun hempty => hkey entry List.mem_cons_self hempty.1,
      hconvert entry List.mem_cons_self]
    dsimp only
    rw [if_neg (hnew entry List.mem_cons_self), ih]
    · rw [List.append_assoc, List.singleton_append]
    · exact fun e he => hconvert e (List.mem_cons_of_mem _ he)
    · exact fun e he => hkey e (List.mem_cons_of_mem _ he)
    · intro e he hmem
      rcases List.mem_cons.mp hmem with heq | hmem
      · exact hfirst e he heq.symm
      · exact hnew e (List.mem_cons_of_mem _ he) hmem
    · exact hhash
    · rw [List.length_append, List.length_singleton]
      omega

end imports

/-! The guess of the format by the first exported line. -/

section guess

variable {modules : ImportModules} {s x : Bytes}

theorem lowerString_append_tab (s x : Bytes) :
    lowerString (s ++ 0x09 :: x) = lowerString s ++ 0x09 :: lowerString x := by
  have htab : ∀ y, splitFirstChar32 ([0x09] ++ y) = some (9, y) := fun y => rfl
  induction s using bytesInduction with
  | nil => exact lowerString_some (htab x)
  | char head c rest _ hhead ih =>
    rw [List.append_assoc, lowerString_some (hhead _), lowerString_some (hhead _), ih,
      List.append_assoc]
  | byte b bs hsplit ih =>
    have hnone : splitFirstChar32 (b :: (bs ++ 0x09 :: x)) = none := by
      by_contra hsome
      obtain ⟨⟨c, rest⟩, hread⟩ := Option.ne_none_iff_exists'.mp hsome
      obtain ⟨head, hs, hchar⟩ := isChar32_of_split hread
      obtain ⟨b', tail, rfl, -, htrailing⟩ := hchar.lead
      rw [List.cons_append, List.cons.injEq] at hs
      obtain ⟨rfl, hs⟩ := hs
      rcases List.append_eq_append_iff.mp hs with ⟨v, rfl, hv⟩ | ⟨v, rfl, -⟩
      · -- the character would end behind the tab, or before it
        cases v with
        | nil =>
          have halone := hchar.read []
          simp only [List.append_nil] at halone
          rw [hsplit] at halone
          cases halone
        | cons t v =>
          rw [List.cons_append, List.cons.injEq] at hv
          have := htrailing t (by simp)
          rw [← hv.1] at this
          cases this
      · have halone := hchar.read v
        rw [List.cons_append, hsplit] at halone
        cases halone
    rw [List.cons_append, lowerString_none hnone, lowerString_none hsplit, ih, List.cons_append]

theorem head_lowered {c : Nat} (h : isUpper c = true) :
    ∃ d ∈ (codepointToUtf8 (c + 0x20)).head?, ¬d < 0x41 := by
  have hhalf : ∀ n < 26, ∃ d ∈ (codepointToUtf8 (0x41 + n + 0x20)).head?, ¬d < 0x41 := by decide
  have hfull : ∀ n < 26, ∃ d ∈ (codepointToUtf8 (0xff21 + n + 0x20)).head?, ¬d < 0x41 := by decide
  rw [isUpper, Bool.or_eq_true, Bool.and_eq_true, Bool.and_eq_true, decide_eq_true_iff,
    decide_eq_true_iff, decide_eq_true_iff, decide_eq_true_iff] at h
  rcases h with h | h
  · have := hhalf (c - 0x41) (by omega)
    rwa [Nat.add_sub_cancel' h.1] at this
  · have := hfull (c - 0xff21) (by omega)
    rwa [Nat.add_sub_cancel' h.1] at this

theorem head_of_lowerString {b : UInt8} (hb : b < 0x41) (h : (lowerString s).head? = some b) :
    s.head? = some b := by
  cases hsplit : splitFirstChar32 s with
  | none =>
    cases s with
    | nil => exact h
    | cons c cs =>
      rw [lowerString_none hsplit] at h
      exact h
  | some r =>
    obtain ⟨c, rest⟩ := r
    obtain ⟨head, rfl, hchar⟩ := isChar32_of_split hsplit
    obtain ⟨b', tail, rfl, -, -⟩ := hchar.lead
    rw [lowerString_some (hchar.read rest), lowerHead] at h
    split at h
    · next hupper =>
      -- what stands there is a small letter
      obtain ⟨d, hd, hsmall⟩ := head_lowered hupper
      rw [List.head?_append, Option.mem_def.mp hd, Option.some_or] at h
      exact absurd (Option.some.inj h ▸ hb) hsmall
    · exact h

theorem prefix_append_tab {header : Bytes} (h : (0x09 : UInt8) ∉ header) :
    header <+: s ++ 0x09 :: x ↔ header <+: s := by
  constructor
  · intro hpre
    rcases List.prefix_or_prefix_of_prefix hpre (List.prefix_append s _) with hshort | ⟨t, rfl⟩
    · exact hshort
    · cases t with
      | nil => rw [List.append_nil]
      | cons b t =>
        rw [List.prefix_append_right_inj, List.cons_prefix_cons] at hpre
        exact absurd (hpre.1 ▸ List.mem_append_right s List.mem_cons_self) h
  · exact fun hpre => hpre.trans (List.prefix_append _ _)

theorem guessIMEType_exportLine (modules : ImportModules) (entry : Entry) :
    ((∃ header ∈ foreignHeaders, header <+: lowerString entry.key) ∧
      entry.key.head? = some 0x21 ∧
      (guessIMEType modules (exportLine modules entry) = .numImes ∨
        guessIMEType modules (exportLine modules entry) = .msime ∨
        guessIMEType modules (exportLine modules entry) = .atok)) ∨
    ((∀ header ∈ foreignHeaders, ¬header <+: lowerString entry.key) ∧
      (guessIMEType modules (exportLine modules entry) = .mozc ∨
        (guessIMEType modules (exportLine modules entry) = .gboardV1 ∧
          entry.key.head? = some 0x23))) := by
  have hlower : lowerString (exportLine modules entry) = lowerString entry.key ++ 0x09 :: lowerString
      (entry.value ++ 0x09 :: (modules.getStringPosType entry.posType ++ 0x09 :: entry.comment)) :=
    lowerString_append_tab _ _
  have hpre : ∀ header : Bytes, (0x09 : UInt8) ∉ header →
      (header <+: lowerString (exportLine modules entry) ↔ header <+: lowerString entry.key) := by
    intro header htab
    rw [hlower]
    exact prefix_append_tab htab
  have hhead : ∀ (b : UInt8) (header : Bytes), b < 0x41 → header.head? = some b →
      header <+: lowerString entry.key → entry.key.head? = some b := by
    intro b header hb hfirst hheader
    obtain ⟨t, ht⟩ := hheader
    refine head_of_lowerString hb ?_
    rw [← ht, List.head?_append, hfirst, Option.some_or]
  have hne : exportLine modules entry ≠ [] := by
    rw [exportLine]
    simp
  have htab : (0x09 : UInt8) ∈ exportLine modules entry := by
    rw [exportLine]
    simp
  rw [guessIMEType, if_neg hne]
  by_cases hmsime : msimeHeader <+: lowerString entry.key
  · rw [if_pos ((hpre _ (by decide)).mpr hmsime)]
    exact .inl ⟨⟨_, by simp [foreignHeaders], hmsime⟩, hhead 0x21 _ (by decide) rfl hmsime,
      .inr (.inl rfl)⟩
  rw [if_neg (mt (hpre _ (by decide)).mp hmsime)]
  by_cases hdicut : dicutHeader <+: lowerString entry.key
  · have hlong : 7 < (lowerString (exportLine modules entry)).length := by
      have hle : dicutHeader.length ≤ (lowerString entry.key).length := hdicut.length_le
      have hseven : dicutHeader.length = 7 := rfl
      rw [hlower, List.length_append, List.length_cons]
      omega
    rw [if_pos ⟨(hpre _ (by decide)).mpr hdicut, hlong⟩]
    refine .inl ⟨⟨_, by simp [foreignHeaders], hdicut⟩, hhead 0x21 _ (by decide) rfl hdicut, ?_⟩
    split
    · exact .inr (.inr rfl)
    · exact .inl rfl
  rw [if_neg fun hboth => hdicut ((hpre _ (by decide)).mp hboth.1)]
  by_cases hatok : atokHeader <+: lowerString entry.key
  · rw [if_pos ((hpre _ (by decide)).mpr hatok)]
    exact .inl ⟨⟨_, by simp [foreignHeaders], hatok⟩, hhead 0x21 _ (by decide) rfl hatok,
      .inr (.inr rfl)⟩
  rw [if_neg (mt (hpre _ (by decide)).mp hatok), if_neg fun hquoted => hquoted.2.2 htab]
  refine .inr ⟨?_, ?_⟩
  · intro header hheader
    simp only [foreignHeaders, List.mem_cons, List.not_mem_nil, or_false] at hheader
    rcases hheader with rfl | rfl | rfl
    · exact hmsime
    · exact hdicut
    · exact hatok
  · split
    · next hgboard =>
      exact .inr ⟨rfl, hhead 0x23 _ (by decide) rfl ((hpre _ (by decide)).mp hgboard)⟩
    · rw [if_pos (.inr htab)]
      exact .inl rfl

end guess

section backup

variable {modules : ImportModules} {dic : List Entry} {imeType : ImeType}

theorem isCommentLine_mozc (line : Bytes) :
    isCommentLine .mozc line = decide (line.head? = some 0x23) := by
  simp [isCommentLine]

theorem textImeType_exported (hplain : ∀ entry ∈ dic, PlainEntry modules entry) {first : Entry}
    (hfirst : dic.head? = some first) :
    textImeType modules imeType (exportDictionary modules dic) =
      determineFinalIMEType imeType (guessIMEType modules (exportLine modules first)) := by
  obtain ⟨rest, rfl⟩ := List.head?_eq_some_iff.mp hfirst
  have hline := hplain first List.mem_cons_self
  rw [textImeType, if_neg (by simp [exportDictionary]), exportDictionary, List.flatMap_cons,
    List.append_assoc, List.singleton_append, nextLine_append hline.line_lf hline.line_cr]

theorem importFromText_exported (hplain : ∀ entry ∈ dic, PlainEntry modules entry) {final : ImeType}
    (hfinal : textImeType modules imeType (exportDictionary modules dic) = final)
    (htype : IsTabbed final) :
    importFromText modules imeType (exportDictionary modules dic) [] =
      some (importLoop modules ((dic.filter fun entry =>
        !isCommentLine final (exportLine modules entry)).map (rawOf modules final)) [] .ok []) := by
  have hnum : final ≠ .numImes := by
    rcases htype with rfl | rfl | rfl | rfl <;> decide
  rw [importFromText, hfinal, if_neg hnum, linesOf_exportDictionary hplain,
    rawEntries_exported htype hplain]
  rfl

theorem Restores.no_comment (hrestores : Restores modules imeType dic)
    (hplain : ∀ entry ∈ dic, PlainEntry modules entry) {final : ImeType}
    (hfinal : textImeType modules imeType (exportDictionary modules dic) = final)
    (htype : IsTabbed final) :
    ∀ entry ∈ dic, isCommentLine final (exportLine modules entry) = false := by
  rw [Restores, importFromText_exported hplain hfinal htype, Option.some.injEq] at hrestores
  have hlength := @length_importLoop modules ((dic.filter fun entry =>
    !isCommentLine final (exportLine modules entry)).map (rawOf modules final)) [] .ok []
  rw [hrestores, List.length_nil, Nat.zero_add, List.length_map] at hlength
  intro entry hentry
  have hall := List.length_filter_eq_length_iff.mp
    (Nat.le_antisymm (List.length_filter_le _ _) hlength) entry hentry
  simpa using hall

theorem restores_of_mozc (hm : modules.Sound) (hb : Backup modules dic)
    (hplain : ∀ entry ∈ dic, PlainEntry modules entry)
    (hfinal : textImeType modules imeType (exportDictionary modules dic) = .mozc)
    (hhead : ∀ entry ∈ dic, entry.key.head? ≠ some 0x23) : Restores modules imeType dic := by
  have hall : (dic.filter fun entry => !isCommentLine .mozc (exportLine modules entry)) = dic := by
    refine List.filter_eq_self.mpr fun entry hentry => ?_
    rw [isCommentLine_mozc, head_exportLine (hplain entry hentry)]
    simp [hhead entry hentry]
  rw [Restores, importFromText_exported hplain hfinal (.inl rfl), hall, importLoop_all]
  · rfl
  · exact fun entry hentry => convertEntry_rawOf hm (hb.valid entry hentry)
      (hb.normalized entry hentry) (hb.no_locale entry hentry)
  · exact fun entry hentry => (hplain entry hentry).key_ne
  · exact fun _ _ => List.not_mem_nil
  · refine hb.distinct.imp_of_mem fun {a b} ha hb' hne heq => hne (hb.no_collision a ha b hb' heq)
  · rw [List.length_nil, Nat.zero_add]
    exact hb.below.le

/-- An exported dictionary comes back exactly if no entry is taken for a comment and the text is not
taken for one of another IME. -/
theorem restores_iff (hm : modules.Sound) (hb : Backup modules dic)
    (himeType : imeType = .mozc ∨ imeType = .imeAutoDetect) :
    Restores modules imeType dic ↔ NotTakenForOther imeType dic := by
  have hplain : ∀ entry ∈ dic, PlainEntry modules entry :=
    fun entry hentry => plainEntry_of_valid hm (hb.valid entry hentry)
  obtain ⟨first, hfirst⟩ : ∃ first, dic.head? = some first := by
    cases hdic : dic with
    | nil => exact absurd hdic hb.nonempty
    | cons first rest => exact ⟨first, rfl⟩
  have hmem : first ∈ dic := List.mem_of_head? hfirst
  have hhead := head_exportLine (hplain first hmem)
  have hguess := guessIMEType_exportLine modules first
  have htype := @textImeType_exported modules dic imeType hplain first hfirst
  have hmozc : textImeType modules imeType (exportDictionary modules dic) = .mozc →
      Restores modules imeType dic → ∀ entry ∈ dic, entry.key.head? ≠ some 0x23 := by
    intro hfinal hrestores entry hentry hcomment
    have hnot := hrestores.no_comment hplain hfinal (.inl rfl) entry hentry
    rw [isCommentLine_mozc, head_exportLine (hplain entry hentry)] at hnot
    exact of_decide_eq_false hnot hcomment
  rcases himeType with rfl | rfl
  · have hfinal : textImeType modules .mozc (exportDictionary modules dic) = .mozc := by
      rw [htype, determineFinalIMEType, if_neg (by decide), if_pos rfl, if_pos]
      rcases hguess with ⟨-, -, h | h | h⟩ | ⟨-, h | ⟨h, -⟩⟩ <;> rw [h] <;> decide
    exact ⟨fun hrestores => ⟨hmozc hfinal hrestores, nofun⟩,
      fun h => restores_of_mozc hm hb hplain hfinal h.1⟩
  rw [determineFinalIMEType, if_pos rfl] at htype
  constructor
  · intro hrestores
    rcases hguess with ⟨-, hbang, hg | hg | hg⟩ | ⟨hheaders, hg | ⟨hg, hsharp⟩⟩
    · rw [Restores, importFromText, htype, hg, if_pos rfl] at hrestores
      cases hrestores
    · have hnot := hrestores.no_comment hplain (htype.trans hg) (.inr (.inl rfl)) first hmem
      simp [isCommentLine, hhead, hbang] at hnot
    · have hnot := hrestores.no_comment hplain (htype.trans hg) (.inr (.inr (.inl rfl))) first hmem
      simp [isCommentLine, hhead, hbang] at hnot
    · refine ⟨hmozc (htype.trans hg) hrestores, fun _ entry hentry => ?_⟩
      obtain rfl := Option.some.inj (hfirst.symm.trans hentry)
      exact hheaders
    · have hnot := hrestores.no_comment hplain (htype.trans hg) (.inr (.inr (.inr rfl))) first hmem
      simp [isCommentLine, hhead, hsharp] at hnot
  · rintro ⟨hsharp, hheaders⟩
    refine restores_of_mozc hm hb hplain ?_ hsharp
    rcases hguess with ⟨⟨header, hheader, hpre⟩, -⟩ | ⟨-, hg | ⟨-, hfirst'⟩⟩
    · exact absurd hpre (hheaders rfl first hfirst header hheader)
    · exact htype.trans hg
    · exact absurd hfirst' (hsharp first hmem)

end backup

section table

/-- The names of the types, as `user_dictionary_storage.proto` has them. -/
def posNames : List (PosType × List Char) :=
  [(.noPos, ['品', '詞', 'な', 'し']), (.noun, ['名', '詞']), (.abbreviation, ['短', '縮', 'よ', 'み']),
    (.suggestionOnly, ['サ', 'ジ', 'ェ', 'ス', 'ト', 'の', 'み']), (.properNoun, ['固', '有', '名', '詞']),
    (.personalName, ['人', '名']), (.familyName, ['姓']), (.firstName, ['名']),
    (.organizationName, ['組', '織']), (.placeName, ['地', '名']),
    (.saIrregularConjugationNoun, ['名', '詞', 'サ', '変']),
    (.adjectiveVerbalNoun, ['名', '詞', '形', '動']), (.number, ['数']),
    (.alphabet, ['ア', 'ル', 'フ', 'ァ', 'ベ', 'ッ', 'ト']), (.symbol, ['記', '号']),
    (.emoticon, ['顔', '文', '字']), (.adverb, ['副', '詞']), (.prenounAdjectival, ['連', '体', '詞']),
    (.conjunction, ['接', '続', '詞']), (.interjection, ['感', '動', '詞']),
    (.prefixWord, ['接', '頭', '語']), (.counterSuffix, ['助', '数', '詞']),
    (.genericSuffix, ['接', '尾', '一', '般']), (.personNameSuffix, ['接', '尾', '人', '名']),
    (.placeNameSuffix, ['接', '尾', '地', '名']), (.waGroup1Verb, ['動', '詞', 'ワ', '行', '五', '段']),
    (.kaGroup1Verb, ['動', '詞', 'カ', '行', '五', '段']),
    (.saGroup1Verb, ['動', '詞', 'サ', '行', '五', '段']),
    (.taGroup1Verb, ['動', '詞', 'タ', '行', '五', '段']),
    (.naGroup1Verb, ['動', '詞', 'ナ', '行', '五', '段']),
    (.maGroup1Verb, ['動', '詞', 'マ', '行', '五', '段']),
    (.raGroup1Verb, ['動', '詞', 'ラ', '行', '五', '段']),
    (.gaGroup1Verb, ['動', '詞', 'ガ', '行', '五', '段']),
    (.baGroup1Verb, ['動', '詞', 'バ', '行', '五', '段']),
    (.haGroup1Verb, ['動', '詞', 'ハ', '行', '四', '段']), (.group2Verb, ['動', '詞', '一', '段']),
    (.kuruGroup3Verb, ['動', '詞', 'カ', '変']), (.suruGroup3Verb, ['動', '詞', 'サ', '変']),
    (.zuruGroup3Verb, ['動', '詞', 'ザ', '変']), (.ruGroup3Verb, ['動', '詞', 'ラ', '変']),
    (.adjective, ['形', '容', '詞']), (.sentenceEndingParticle, ['終', '助', '詞']),
    (.punctuation, ['句', '読', '点']), (.freeStandingWord, ['独', '立', '語']),
    (.suppressionWord, ['抑', '制', '単', '語'])]

def tableModules : ImportModules where
  getStringPosType pos := utf8 (((posNames.find? fun row => row.1 = pos).map Prod.snd).getD [])
  normalizeReading s := s
  normalizePos s := s
  posMap s := (posNames.find? fun row => utf8 row.2 = s).map fun row => some row.1
  hashOf key value pos := UInt64.ofNat (key.length + value.length + pos.toNat)
  simpleAtoi _ := 0

theorem tableModules_sound : tableModules.Sound where
  name_plain pos := by cases pos <;> decide +kernel
  name_back pos := by cases pos <;> decide +kernel

def sharpEntry : Entry := { key := [0x23], value := [0xe2, 0x99, 0xaf], pos := some .noun }

theorem backup_singleton {entry : Entry} (h : validateEntry entry = .ok) (hlocale : entry.locale = []) :
    Backup tableModules [entry] where
  nonempty := List.cons_ne_nil _ _
  below := by
    rw [List.length_singleton, kMaxEntrySize]
    omega
  valid := by simpa using h
  normalized _ _ := rfl
  no_locale := by simpa using hlocale
  distinct := List.pairwise_singleton _ _
  no_collision a ha b hb _ := by rw [List.mem_singleton.mp ha, List.mem_singleton.mp hb]

theorem restores_iff_a : Restores tableModules .imeAutoDetect [aEntry] ↔
    NotTakenForOther .imeAutoDetect [aEntry] :=
  restores_iff tableModules_sound (backup_singleton (by decide) rfl) (.inr rfl)

/-- A valid reading that is taken for a comment: the import tells of no error and has no entry. -/
theorem not_restores_sharp : tableModules.Sound ∧ Backup tableModules [sharpEntry] ∧
    importFromText tableModules .mozc (exportDictionary tableModules [sharpEntry]) [] =
      some (.ok, []) ∧
    ¬Restores tableModules .mozc [sharpEntry] := by
  have himport : importFromText tableModules .mozc (exportDictionary tableModules [sharpEntry]) [] =
      some (.ok, []) := by decide +kernel
  refine ⟨tableModules_sound, backup_singleton (by decide) rfl, himport, fun hrestores => ?_⟩
  rw [Restores, himport] at hrestores
  cases hrestores

end table

end Mozkey.Dictionary.UserDictionary
