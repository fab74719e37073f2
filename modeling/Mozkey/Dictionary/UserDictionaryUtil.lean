import Mozkey.Base.UnicodeChar

/-! The entries of a user dictionary and `ValidateEntry` of `dictionary/user_dictionary_util.cc`, over
`IsValidUtf8` of `base/strings/unicode.cc`. -/

namespace Mozkey.Dictionary.UserDictionary

open Storage Base

inductive PosType where
  | noPos | noun | abbreviation | suggestionOnly | properNoun | personalName | familyName | firstName
  | organizationName | placeName | saIrregularConjugationNoun | adjectiveVerbalNoun | number | alphabet
  | symbol | emoticon | adverb | prenounAdjectival | conjunction | interjection | prefixWord
  | counterSuffix | genericSuffix | personNameSuffix | placeNameSuffix | waGroup1Verb | kaGroup1Verb
  | saGroup1Verb | taGroup1Verb | naGroup1Verb | maGroup1Verb | raGroup1Verb | gaGroup1Verb
  | baGroup1Verb | haGroup1Verb | group2Verb | kuruGroup3Verb | suruGroup3Verb | zuruGroup3Verb
  | ruGroup3Verb | adjective | sentenceEndingParticle | punctuation | freeStandingWord
  | suppressionWord
  deriving DecidableEq

def PosType.toNat (pos : PosType) : Nat := pos.ctorIdx

structure Entry where
  key : Bytes := []
  value : Bytes := []
  comment : Bytes := []
  pos : Option PosType := none
  locale : Bytes := []
  deriving DecidableEq

def Entry.posType (entry : Entry) : PosType := entry.pos.getD .noun

def aEntry : Entry := { key := [0xe3, 0x81, 0x82], value := [0xe4, 0xba, 0x9c], pos := some .noun }

inductive ExtendedErrorCode where
  | ok
  | readingEmpty
  | readingTooLong
  | readingContainsInvalidCharacter
  | wordEmpty
  | wordTooLong
  | wordContainsInvalidCharacter
  | invalidPosType
  | commentTooLong
  | commentContainsInvalidCharacter
  | importTooManyWords
  | importNotSupported
  | importInvalidEntries
  deriving DecidableEq

def isValidUtf8Loop : Nat → Bytes → Bool
  | _, [] => true
  | 0, _ :: _ => false
  | fuel + 1, b :: bs =>
    let dr := Utf8Internal.decode (b :: bs)
    if !dr.ok then false else isValidUtf8Loop fuel ((b :: bs).drop dr.bytesSeen)

def isValidUtf8 (sv : Bytes) : Bool := isValidUtf8Loop sv.length sv

def kMaxStringSize : Nat := 300

def kInvalidChars : Bytes := [0x0a, 0x0d, 0x09]

def isTooLongString (str : Bytes) : Bool := str.length > kMaxStringSize

def containsInvalidChars (str : Bytes) : Bool :=
  str.any (kInvalidChars.contains ·) || !isValidUtf8 str

def validateEntry (entry : Entry) : ExtendedErrorCode :=
  if entry.key = [] then .readingEmpty
  else if isTooLongString entry.key then .readingTooLong
  else if containsInvalidChars entry.key then .readingContainsInvalidCharacter
  else if entry.value = [] then .wordEmpty
  else if isTooLongString entry.value then .wordTooLong
  else if containsInvalidChars entry.value then .wordContainsInvalidCharacter
  else if isTooLongString entry.comment then .commentTooLong
  else if containsInvalidChars entry.comment then .commentContainsInvalidCharacter
  else if entry.pos = none then .invalidPosType
  else .ok

/-- A text of at most 300 bytes that is UTF-8 and has no tab and no end of a line. -/
structure ValidField (str : Bytes) : Prop where
  short : str.length ≤ 300
  valid : isValidUtf8 str = true
  no_tab : (0x09 : UInt8) ∉ str
  no_lf : (0x0a : UInt8) ∉ str
  no_cr : (0x0d : UInt8) ∉ str

theorem validField_iff (str : Bytes) :
    ValidField str ↔ isTooLongString str = false ∧ containsInvalidChars str = false := by
  have hany : str.any (kInvalidChars.contains ·) = false ↔
      (0x09 : UInt8) ∉ str ∧ (0x0a : UInt8) ∉ str ∧ (0x0d : UInt8) ∉ str := by
    rw [List.any_eq_false]
    constructor
    · intro h
      refine ⟨fun hmem => ?_, fun hmem => ?_, fun hmem => ?_⟩ <;> exact absurd (h _ hmem) (by decide)
    · rintro ⟨htab, hlf, hcr⟩ b hb hinvalid
      simp only [kInvalidChars, List.contains_iff_mem, List.mem_cons, List.not_mem_nil, or_false]
        at hinvalid
      rcases hinvalid with rfl | rfl | rfl
      · exact hlf hb
      · exact hcr hb
      · exact htab hb
  rw [containsInvalidChars, Bool.or_eq_false_iff, hany, isTooLongString, decide_eq_false_iff_not,
    not_lt, kMaxStringSize, Bool.not_eq_false']
  constructor
  · rintro ⟨hshort, hvalid, htab, hlf, hcr⟩
    exact ⟨hshort, ⟨htab, hlf, hcr⟩, hvalid⟩
  · rintro ⟨hshort, ⟨htab, hlf, hcr⟩, hvalid⟩
    exact ⟨hshort, hvalid, htab, hlf, hcr⟩

structure ValidEntry (entry : Entry) : Prop where
  key_ne : entry.key ≠ []
  key : ValidField entry.key
  value_ne : entry.value ≠ []
  value : ValidField entry.value
  comment : ValidField entry.comment
  pos : entry.pos ≠ none

theorem validateEntry_iff (entry : Entry) : validateEntry entry = .ok ↔ ValidEntry entry := by
  have hkey := validField_iff entry.key
  have hvalue := validField_iff entry.value
  have hcomment := validField_iff entry.comment
  rw [validateEntry]
  constructor
  · intro h
    split_ifs at h with h₁ h₂ h₃ h₄ h₅ h₆ h₇ h₈ h₉
    rw [Bool.not_eq_true] at h₂ h₃ h₅ h₆ h₇ h₈
    exact ⟨h₁, hkey.mpr ⟨h₂, h₃⟩, h₄, hvalue.mpr ⟨h₅, h₆⟩, hcomment.mpr ⟨h₇, h₈⟩, h₉⟩
  · rintro ⟨h₁, hk, h₄, hv, hc, h₉⟩
    obtain ⟨h₂, h₃⟩ := hkey.mp hk
    obtain ⟨h₅, h₆⟩ := hvalue.mp hv
    obtain ⟨h₇, h₈⟩ := hcomment.mp hc
    rw [if_neg h₁, if_neg (by rw [h₂]; decide), if_neg (by rw [h₃]; decide), if_neg h₄,
      if_neg (by rw [h₅]; decide), if_neg (by rw [h₆]; decide), if_neg (by rw [h₇]; decide),
      if_neg (by rw [h₈]; decide), if_neg h₉]

section valid

inductive WholeText : Bytes → Prop
  | nil : WholeText []
  | cons {w rest : Bytes} : WellFormed w → WholeText rest → WholeText (w ++ rest)

theorem decode_wellFormed {w : Bytes} (h : WellFormed w) (rest : Bytes) :
    (Utf8Internal.decode (w ++ rest)).ok = true ∧
      (Utf8Internal.decode (w ++ rest)).bytesSeen = w.length := by
  cases w with
  | nil => exact absurd h not_wellFormed_nil
  | cons b w =>
    obtain ⟨ranges, hranges, hw⟩ := wellFormed_cons.mp h
    rw [List.cons_append, decode_ok hranges hw rest]
    exact ⟨rfl, rfl⟩

theorem exists_wellFormed {b : UInt8} {bs : Bytes} (h : (Utf8Internal.decode (b :: bs)).ok = true) :
    ∃ w rest, b :: bs = w ++ rest ∧ WellFormed w := by
  cases hranges : trailingRanges b with
  | none =>
    rw [decode_none hranges] at h
    cases h
  | some ranges =>
    have hmatched : matched ranges bs = ranges.length := by
      refine Nat.le_antisymm (matched_le ranges bs).1 (Nat.le_of_not_lt fun hless => ?_)
      rw [decode_error hranges hless] at h
      cases h
    have hle : ranges.length ≤ bs.length := hmatched ▸ (matched_le ranges bs).2
    refine ⟨b :: bs.take ranges.length, bs.drop ranges.length, ?_, ?_⟩
    · rw [List.cons_append, List.take_append_drop]
    · refine wellFormed_cons.mpr ⟨ranges, hranges, ?_⟩
      rw [forall₂_iff_matched, matched_take, hmatched, Nat.min_self]
      exact ⟨rfl, by rw [List.length_take, Nat.min_eq_left hle]⟩

theorem isValidUtf8Loop_iff {fuel : Nat} {s : Bytes} (h : s.length ≤ fuel) :
    isValidUtf8Loop fuel s = true ↔ WholeText s := by
  induction fuel generalizing s with
  | zero =>
    obtain rfl := List.length_eq_zero_iff.mp (Nat.le_zero.mp h)
    exact iff_of_true rfl .nil
  | succ fuel ih =>
    cases s with
    | nil => exact iff_of_true rfl .nil
    | cons b bs =>
      have hcons : ∀ w rest, b :: bs = w ++ rest → WellFormed w →
          (isValidUtf8Loop (fuel + 1) (b :: bs) = true ↔ WholeText rest) := by
        intro w rest hs hw
        have hpos : w ≠ [] := fun hnil => not_wellFormed_nil (hnil ▸ hw)
        obtain ⟨hok, hseen⟩ := decode_wellFormed hw rest
        have hlength := congrArg List.length hs
        have := List.length_pos_iff.mpr hpos
        rw [List.length_append] at hlength
        rw [isValidUtf8Loop, hs, hok, hseen, List.drop_left]
        exact ih (by omega)
      constructor
      · intro hvalid
        have hok : (Utf8Internal.decode (b :: bs)).ok = true := by
          by_contra hno
          simp [isValidUtf8Loop, hno] at hvalid
        obtain ⟨w, rest, hs, hw⟩ := exists_wellFormed hok
        rw [hs]
        exact .cons hw ((hcons w rest hs hw).mp hvalid)
      · intro hwhole
        generalize hs : b :: bs = s at hwhole
        cases hwhole with
        | nil => cases hs
        | @cons w rest hw hrest => exact hs ▸ (hcons w rest hs hw).mpr hrest

theorem isValidUtf8_iff (s : Bytes) : isValidUtf8 s = true ↔ WholeText s :=
  isValidUtf8Loop_iff (le_refl _)

theorem WholeText.append {s t : Bytes} (hs : WholeText s) (ht : WholeText t) :
    WholeText (s ++ t) := by
  induction hs with
  | nil => exact ht
  | cons hw _ ih =>
    rw [List.append_assoc]
    exact .cons hw ih

theorem WholeText.head {b : UInt8} {bs : Bytes} (h : WholeText (b :: bs)) :
    isUtf8TrailingByte b = false := by
  generalize hs : b :: bs = s at h
  cases h with
  | nil => cases hs
  | @cons w rest hw _ =>
    cases w with
    | nil => exact absurd hw not_wellFormed_nil
    | cons c w =>
      rw [List.cons_append, List.cons.injEq] at hs
      obtain ⟨ranges, hranges, -⟩ := wellFormed_cons.mp hw
      exact hs.1 ▸ not_trailing_of_trailingRanges hranges

theorem trailing_of_wellFormed {b : UInt8} {w : Bytes} (h : WellFormed (b :: w)) :
    ∀ t ∈ w, isUtf8TrailingByte t = true := by
  obtain ⟨ranges, hranges, hw⟩ := wellFormed_cons.mp h
  rw [List.forall₂_iff_get] at hw
  intro t ht
  obtain ⟨i, hi, rfl⟩ := List.getElem_of_mem ht
  exact isUtf8TrailingByte_of_inRange
    (range_of_trailingRanges hranges _ (List.getElem_mem (hw.1 ▸ hi))) (hw.2 i (hw.1 ▸ hi) hi)

theorem WholeText.of_append {s t : Bytes} (h : WholeText (s ++ t)) (ht : WholeText t) :
    WholeText s := by
  generalize hu : s ++ t = u at h
  induction h generalizing s with
  | nil =>
    rw [List.append_eq_nil_iff] at hu
    exact hu.1 ▸ .nil
  | @cons w rest hw _ ih =>
    rcases List.append_eq_append_iff.mp hu with ⟨v, rfl, rfl⟩ | ⟨v, rfl, hrest⟩
    · -- the end of the first text would lie inside a character
      cases s with
      | nil => exact .nil
      | cons b s =>
        cases v with
        | nil =>
          rw [List.append_nil] at hw
          exact List.append_nil (b :: s) ▸ .cons hw .nil
        | cons c v =>
          have htrailing := trailing_of_wellFormed hw c (by simp)
          have hhead := ht.head
          rw [htrailing] at hhead
          cases hhead
    · exact .cons hw (ih hrest.symm)

theorem WholeText.take_of_prefix {s key : Bytes} (hkey : WholeText key) (hne : key ≠ [])
    (hpre : key <+: s) :
    s.take (Utf8Internal.decode s).bytesSeen <+: key := by
  cases hkey with
  | nil => exact absurd rfl hne
  | @cons w rest hw _ =>
    obtain ⟨more, rfl⟩ := hpre
    rw [List.append_assoc, (decode_wellFormed hw _).2, List.take_left]
    exact List.prefix_append _ _

end valid

end Mozkey.Dictionary.UserDictionary
