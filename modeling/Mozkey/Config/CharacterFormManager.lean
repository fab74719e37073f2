import Mozkey.Base.ScriptType
import Mozkey.Storage.LruStorageItems

/-! The character forms of `config/character_form_manager.cc`.  Two managers, each with the tables of
its own rules, share a storage with an entry for each character; the storage is a map here, as an
`LruStorage` is below its capacity (`LruStorage.Represents`).  The table of
`japanese::HalfWidthToFullWidth` is left to a parameter. -/

namespace Mozkey.Base

open Storage

def utf8AsCharsLoop : Nat → Bytes → List Bytes
  | 0, _ => []
  | _, [] => []
  | fuel + 1, b :: bs =>
    let (_, bytesSeen) := decode b bs
    (b :: bs).take bytesSeen :: utf8AsCharsLoop fuel ((b :: bs).drop bytesSeen)

def utf8AsChars (s : Bytes) : List Bytes := utf8AsCharsLoop s.length s

namespace Util

inductive FormType where
  | unknownForm
  | halfWidth
  | fullWidth
  | formTypeSize
  deriving DecidableEq

def getFormType (codepoint : Nat) : FormType :=
  if inRange codepoint 0x0020 0x007f || inRange codepoint 0x27e6 0x27ed ||
      inRange codepoint 0x2985 0x2986 then .halfWidth
  else if codepoint ∈ [0x00a2, 0x00a3, 0x00a5, 0x00a6, 0x00ac, 0x00af] then .halfWidth
  else if codepoint == 0x20a9 || inRange codepoint 0xff61 0xff9f ||
      inRange codepoint 0xffa0 0xffbe || inRange codepoint 0xffc2 0xffcf ||
      inRange codepoint 0xffd2 0xffd7 || inRange codepoint 0xffda 0xffdc ||
      inRange codepoint 0xffe8 0xffee then .halfWidth
  else .fullWidth

def getFormTypeLoop : List Nat → FormType → FormType
  | [], result => result
  | codepoint :: iter, result =>
    let type := getFormType codepoint
    if type = .unknownForm ∨ (result ≠ .formTypeSize ∧ type ≠ result) then .unknownForm
    else getFormTypeLoop iter type

def getFormTypeOfText (s : Bytes) : FormType := getFormTypeLoop (utf8ToUtf32 s) .formTypeSize

end Util

end Mozkey.Base

namespace Mozkey.Config

open Base Storage

inductive CharacterForm where
  | halfWidth
  | fullWidth
  | lastForm
  | noConversion
  | unnamed (value : UInt32)
  deriving DecidableEq

namespace CharacterForm

def ofUInt32 (value : UInt32) : CharacterForm :=
  if value = 0 then .halfWidth
  else if value = 1 then .fullWidth
  else if value = 2 then .lastForm
  else if value = 3 then .noConversion
  else .unnamed value

def toUInt32 : CharacterForm → UInt32
  | .halfWidth => 0
  | .fullWidth => 1
  | .lastForm => 2
  | .noConversion => 3
  | .unnamed value => value

end CharacterForm

abbrev Value := Vector UInt8 4

def storeUnaligned (value : UInt32) : Value :=
  #v[value.toUInt8, (value >>> 8).toUInt8, (value >>> 16).toUInt8, (value >>> 24).toUInt8]

def loadUnaligned (value : Value) : UInt32 :=
  value[0].toUInt32 ||| value[1].toUInt32 <<< 8 ||| value[2].toUInt32 <<< 16 |||
    value[3].toUInt32 <<< 24

/-- A form that is stored, not one that says how to choose it. -/
def CharacterForm.Width (form : CharacterForm) : Prop := form = .fullWidth ∨ form = .halfWidth

theorem CharacterForm.Width.load {form : CharacterForm} (h : form.Width) :
    CharacterForm.ofUInt32 (loadUnaligned (storeUnaligned form.toUInt32)) = form := by
  rcases h with rfl | rfl <;> decide

theorem CharacterForm.Width.firstByte {form : CharacterForm} (h : form.Width) :
    CharacterForm.ofUInt32 (storeUnaligned form.toUInt32)[0].toUInt32 = form := by
  rcases h with rfl | rfl <;> decide

abbrev FormStorage := UInt16 → Option Value

namespace FormStorage

def empty : FormStorage := fun _ => none

def insert (storage : FormStorage) (key : UInt16) (value : Value) : FormStorage :=
  Function.update storage key (some value)

end FormStorage

section normalized

variable (halfWidthToFullWidth : Bytes → Bytes)

def getNormalizedCharacter (str : Bytes) : UInt16 :=
  match Util.getScriptTypeOfText str with
  | .katakana => 0x30a2
  | .number => 0x0030
  | .alphabet => 0x0041
  | .kanji => 0
  | .hiragana => 0
  | _ =>
    if charsLen str = 1 then
      let codepoint := (utf8AsChars32 (halfWidthToFullWidth str)).headD 0
      if codepoint ≤ 0xffff then UInt16.ofNat codepoint else 0
    else 0

end normalized

structure CharacterFormManagerImpl where
  conversionTable : AList fun _ : UInt16 => CharacterForm
  groupTable : AList fun _ : UInt16 => List UInt16

namespace CharacterFormManagerImpl

def clear : CharacterFormManagerImpl := ⟨∅, ∅⟩

def unique : List UInt16 → List UInt16
  | a :: b :: group => if a = b then unique (b :: group) else a :: unique (b :: group)
  | group => group

def kMaxGroupSize : Nat := 128

def kMaxTableSize : Nat := 256

def addGroup (group : List UInt16) (form : CharacterForm) (m : CharacterFormManagerImpl) :
    CharacterFormManagerImpl :=
  group.foldl (fun m ucs2 => {
    conversionTable := m.conversionTable.insert ucs2 form
    groupTable := if group.length > 1 then m.groupTable.insert ucs2 group else m.groupTable }) m

section rules

variable (halfWidthToFullWidth : Bytes → Bytes)

def addRule (m : CharacterFormManagerImpl) (key : Bytes) (form : CharacterForm) :
    CharacterFormManagerImpl :=
  let group := ((utf8AsChars key).map (getNormalizedCharacter halfWidthToFullWidth)).filter (· ≠ 0)
  if group = [] then m
  else if group.length > kMaxGroupSize then m
  else if m.conversionTable.entries.length + group.length > kMaxTableSize ∨
      m.groupTable.entries.length + group.length > kMaxTableSize then m
  else addGroup (unique (group.insertionSort (· ≤ ·))) form m

def addRules (rules : List (Bytes × CharacterForm)) : CharacterFormManagerImpl :=
  rules.foldl (fun m rule => m.addRule halfWidthToFullWidth rule.1 rule.2) clear

variable (m : CharacterFormManagerImpl) (storage : FormStorage)

def getCharacterFormFromStorage (storage : FormStorage) (ucs2 : UInt16) : CharacterForm :=
  match storage ucs2 with
  | none => .fullWidth
  | some value => .ofUInt32 (loadUnaligned value)

def getCharacterForm (str : Bytes) : CharacterForm :=
  let ucs2 := getNormalizedCharacter halfWidthToFullWidth str
  if ucs2 = 0 then .noConversion
  else
    match m.conversionTable.lookup ucs2 with
    | none => .noConversion
    | some .lastForm => getCharacterFormFromStorage storage ucs2
    | some form => form

def saveCharacterFormToStorage (ucs2 : UInt16) (form : CharacterForm) : FormStorage :=
  if form ≠ .fullWidth ∧ form ≠ .halfWidth then storage
  else if (storage ucs2).any fun value => CharacterForm.ofUInt32 value[0].toUInt32 = form then storage
  else
    let iform := storeUnaligned form.toUInt32
    match m.groupTable.lookup ucs2 with
    | none => storage.insert ucs2 iform
    | some group => group.foldl (fun storage groupUcs2 => storage.insert groupUcs2 iform) storage

/-- The first byte of the value of a character is that of the form. -/
def Matches (storage : FormStorage) (ucs2 : UInt16) (form : CharacterForm) : Prop :=
  ∃ value, storage ucs2 = some value ∧ CharacterForm.ofUInt32 value[0].toUInt32 = form

def setCharacterForm (str : Bytes) (form : CharacterForm) : FormStorage :=
  let ucs2 := getNormalizedCharacter halfWidthToFullWidth str
  if ucs2 = 0 then storage
  else
    match m.conversionTable.lookup ucs2 with
    | some .lastForm => m.saveCharacterFormToStorage storage ucs2 form
    | _ => storage

def guessAndSetCharacterForm (str : Bytes) : FormStorage :=
  match Util.getFormTypeOfText str with
  | .fullWidth => m.setCharacterForm halfWidthToFullWidth storage str .fullWidth
  | .halfWidth => m.setCharacterForm halfWidthToFullWidth storage str .halfWidth
  | _ => storage

end rules

end CharacterFormManagerImpl

/-- The two managers and the storage that they share. -/
structure CharacterFormManager where
  preedit : CharacterFormManagerImpl
  conversion : CharacterFormManagerImpl
  storage : FormStorage

namespace CharacterFormManager

/-- The calls that change the storage.  `CharacterFormManager` sends those about a form to the manager
for conversions only. -/
inductive Op where
  | setCharacterForm (input : Bytes) (form : CharacterForm)
  | guessAndSetCharacterForm (input : Bytes)
  | clearHistory

section runs

variable (halfWidthToFullWidth : Bytes → Bytes)

/-- The managers after `AddPreeditRule` and `AddConversionRule` of some rules, with an empty
storage. -/
def create (preeditRules conversionRules : List (Bytes × CharacterForm)) : CharacterFormManager where
  preedit := .addRules halfWidthToFullWidth preeditRules
  conversion := .addRules halfWidthToFullWidth conversionRules
  storage := .empty

def step (m : CharacterFormManager) : Op → CharacterFormManager
  | .setCharacterForm input form =>
    { m with storage := m.conversion.setCharacterForm halfWidthToFullWidth m.storage input form }
  | .guessAndSetCharacterForm input =>
    { m with storage := m.conversion.guessAndSetCharacterForm halfWidthToFullWidth m.storage input }
  | .clearHistory => { m with storage := .empty }

def run (m : CharacterFormManager) (ops : List Op) : CharacterFormManager :=
  ops.foldl (step halfWidthToFullWidth) m

def getConversionCharacterForm (m : CharacterFormManager) (input : Bytes) : CharacterForm :=
  m.conversion.getCharacterForm halfWidthToFullWidth m.storage input

def getPreeditCharacterForm (m : CharacterFormManager) (input : Bytes) : CharacterForm :=
  m.preedit.getCharacterForm halfWidthToFullWidth m.storage input

end runs

end CharacterFormManager

end Mozkey.Config
