import Mozkey.Base.NumberUtil
import Mozkey.Base.Utf8

/-! `NumberUtil::ArabicToSeparatedArabic` of `base/number_util.cc`: the separators of an arabic number,
and what is read of the input. -/

namespace Mozkey.Base.NumberUtil

open Storage

inductive SeparatedStyle where
  | numberSeparatedArabicHalfwidth
  | numberSeparatedArabicFullwidth
  deriving DecidableEq

structure SeparatedString where
  value : Text
  description : String
  style : SeparatedStyle
  deriving DecidableEq

structure SeparatedVariation where
  digits : List Text
  description : String
  separator : Text
  point : Text
  style : SeparatedStyle
  deriving DecidableEq

def kNumDigitsVariations : List SeparatedVariation :=
  [{ digits := kNumHalfWidthDigits, description := "数字", separator := [','], point := ['.'],
     style := .numberSeparatedArabicHalfwidth },
   { digits := kNumFullWidthDigits, description := "数字", separator := ['，'], point := ['．'],
     style := .numberSeparatedArabicFullwidth }]

def isDigitByte (c : UInt8) : Bool := 0x30 ≤ c && c ≤ 0x39

def isDecimalNumberLoop : (numPoint : Nat) → Bytes → Bool
  | _, [] => true
  | numPoint, c :: str =>
    if c = 0x2e then
      if 2 ≤ numPoint + 1 then false else isDecimalNumberLoop (numPoint + 1) str
    else if !isDigitByte c then false
    else isDecimalNumberLoop numPoint str

def isDecimalNumber (str : Bytes) : Bool := isDecimalNumberLoop 0 str

/-- The loop over the integral part, from its `j`-th byte on. -/
def integralPart (variation : SeparatedVariation) (size : Nat) : (j : Nat) → Bytes → Text
  | _, [] => []
  | j, c :: integer =>
    (if j ≠ 0 ∧ (size - j) % 3 = 0 then variation.separator else []) ++
      (if isDigitByte c then (variation.digits[c.toNat - 0x30]?).getD [] else []) ++
      integralPart variation size (j + 1) integer

/-- The loop over the digits behind the point, which reads the table without a check. -/
def fractionalPart (variation : SeparatedVariation) : Bytes → Option Text
  | [] => some []
  | c :: fraction =>
    if c < 0x30 then none
    else do
      let digit ← variation.digits[c.toNat - 0x30]?
      let rest ← fractionalPart variation fraction
      some (digit ++ rest)

def separatedString (integer fraction : Bytes) (variation : SeparatedVariation) :
    Option SeparatedString := do
  let fractional ←
    match fraction with
    | [] => some []
    | _ :: digits => (fractionalPart variation digits).map fun text => variation.point ++ text
  some { value := integralPart variation integer.length 0 integer ++ fractional,
         description := variation.description, style := variation.style }

/-- Without result, what stands outside of the input or of the table is read.  The inner one is what is
appended to `output`, where the function returns true. -/
def arabicToSeparatedArabic (inputNum : Bytes) : Option (Option (List SeparatedString)) :=
  if !isDecimalNumber inputNum then some none
  else
    let pointPos := inputNum.findIdx (· = 0x2e)
    let integer := inputNum.take pointPos
    let fraction := inputNum.drop pointPos
    -- The first byte of `integer` is that of the input, also where `integer` is empty.
    match inputNum with
    | [] => none
    | first :: _ =>
      if first = 0x30 then some none
      else (kNumDigitsVariations.mapM (separatedString integer fraction)).map some

/-! What the outputs should be. -/

/-- A digit or a point of full width becomes that of ASCII. -/
def asciiByte (c : Char) : UInt8 :=
  UInt8.ofNat (if c.toNat < 0x80 then c.toNat else c.toNat - 0xfee0)

def withoutSeparators (separator : Char) (text : Text) : Bytes :=
  (text.filter (· ≠ separator)).map asciiByte

/-- One to three digits, and a separator in front of every further three. -/
def IsGrouped (separator : Char) (text : Text) : Prop :=
  ∃ (first : Text) (groups : List Text), first.length ≤ 3 ∧ (groups ≠ [] → first ≠ []) ∧
    (∀ group ∈ groups, group.length = 3) ∧ (∀ digit ∈ first ++ groups.flatten, digit ≠ separator) ∧
    text = first ++ groups.flatMap (separator :: ·)

def SeparatedStyle.separator : SeparatedStyle → Char
  | .numberSeparatedArabicHalfwidth => ','
  | .numberSeparatedArabicFullwidth => '，'

/-- The output is the input, with the separators where they belong. -/
structure Separates (input : Bytes) (output : SeparatedString) : Prop where
  same : withoutSeparators output.style.separator output.value = input
  placed : ∃ integer fraction, output.value = integer ++ fraction ∧
    withoutSeparators output.style.separator integer = input.takeWhile (· ≠ 0x2e) ∧
    IsGrouped output.style.separator integer ∧ output.style.separator ∉ fraction

/-- Nothing is read outside of the input, and what is put out is the input with separators. -/
def SeparatesSafely (input : Bytes) : Prop :=
  ∃ result, arabicToSeparatedArabic input = some result ∧
    ∀ outputs, result = some outputs → ∀ output ∈ outputs, Separates input output

/-! The variations. -/

structure Writes (variation : SeparatedVariation) (digit : UInt8 → Char) (point : Char) : Prop where
  separator : variation.separator = [variation.style.separator]
  pointText : variation.point = [point]
  asciiPoint : asciiByte point = 0x2e
  point_ne : point ≠ variation.style.separator
  digits : ∀ c, isDigitByte c = true → variation.digits[c.toNat - 0x30]? = some [digit c]
  ascii : ∀ c, isDigitByte c = true → asciiByte (digit c) = c
  digit_ne : ∀ c, isDigitByte c = true → digit c ≠ variation.style.separator

theorem forall_digitByte {p : UInt8 → Prop} (h : ∀ n < 10, p (UInt8.ofNat (0x30 + n))) (c : UInt8)
    (hc : isDigitByte c = true) : p c := by
  rw [isDigitByte, Bool.and_eq_true, decide_eq_true_eq, decide_eq_true_eq, UInt8.le_iff_toNat_le,
    UInt8.le_iff_toNat_le] at hc
  have hlow : 0x30 ≤ c.toNat := hc.1
  have hhigh : c.toNat ≤ 0x39 := hc.2
  have hp := h (c.toNat - 0x30) (by omega)
  rwa [Nat.add_sub_of_le hlow, UInt8.ofNat_toNat] at hp

theorem exists_writes {variation : SeparatedVariation} (hmem : variation ∈ kNumDigitsVariations) :
    ∃ digit point, Writes variation digit point := by
  rw [kNumDigitsVariations, List.mem_cons, List.mem_singleton] at hmem
  rcases hmem with rfl | rfl
  · exact ⟨fun c => Char.ofNat c.toNat, '.', rfl, rfl, by decide, by decide,
      forall_digitByte (by decide), forall_digitByte (by decide), forall_digitByte (by decide)⟩
  · exact ⟨fun c => Char.ofNat (c.toNat + 0xfee0), '．', rfl, rfl, by decide, by decide,
      forall_digitByte (by decide), forall_digitByte (by decide), forall_digitByte (by decide)⟩

section integers

variable {variation : SeparatedVariation} {digit : UInt8 → Char} {point : Char}

theorem integralPart_cons (hw : Writes variation digit point) {size j : Nat} {c : UInt8}
    (hc : isDigitByte c = true) (integer : Bytes) :
    integralPart variation size j (c :: integer) =
      (if j ≠ 0 ∧ (size - j) % 3 = 0 then [variation.style.separator] else []) ++
        digit c :: integralPart variation size (j + 1) integer := by
  rw [integralPart, if_pos hc, hw.digits c hc, hw.separator, List.append_assoc]
  rfl

theorem integralPart_plain (hw : Writes variation digit point) {size j : Nat} {c : UInt8}
    (hc : isDigitByte c = true) (hno : j = 0 ∨ (size - j) % 3 ≠ 0) (integer : Bytes) :
    integralPart variation size j (c :: integer) =
      digit c :: integralPart variation size (j + 1) integer := by
  rw [integralPart_cons hw hc, if_neg, List.nil_append]
  rintro ⟨hj, hmod⟩
  exact hno.elim hj (· hmod)

theorem integralPart_groups (hw : Writes variation digit point) {size j : Nat} {integer : Bytes}
    (hdigit : ∀ c ∈ integer, isDigitByte c = true) (hj : j ≠ 0) (hsize : size = j + integer.length)
    (hthree : integer.length % 3 = 0) :
    ∃ groups : List Text, (∀ group ∈ groups, group.length = 3) ∧
      groups.flatten = integer.map digit ∧
      integralPart variation size j integer =
        groups.flatMap (variation.style.separator :: ·) := by
  match integer with
  | [] => exact ⟨[], by simp, rfl, rfl⟩
  | [_] | [_, _] => simp at hthree
  | a :: b :: c :: integer =>
    simp only [List.length_cons] at hsize hthree
    obtain ⟨ha, hb, hc, hrest⟩ : isDigitByte a = true ∧ isDigitByte b = true ∧
        isDigitByte c = true ∧ ∀ c ∈ integer, isDigitByte c = true := by
      simpa using hdigit
    obtain ⟨groups, hlength, hflat, hloop⟩ := integralPart_groups hw hrest
      (Nat.succ_ne_zero (j + 2)) (show size = j + 3 + integer.length by omega) (by omega)
    refine ⟨[digit a, digit b, digit c] :: groups, ?_, ?_, ?_⟩
    · rintro group hgroup
      rcases List.mem_cons.mp hgroup with rfl | hgroup
      · rfl
      · exact hlength group hgroup
    · rw [List.flatten_cons, hflat]
      rfl
    · rw [integralPart_cons hw ha, if_pos ⟨hj, by omega⟩, integralPart_plain hw hb (.inr (by omega)),
        integralPart_plain hw hc (.inr (by omega)), hloop]
      rfl

theorem integralPart_rest (hw : Writes variation digit point) {size j : Nat} {integer : Bytes}
    (hdigit : ∀ c ∈ integer, isDigitByte c = true) (hj : j ≠ 0)
    (hsize : size = j + integer.length) :
    ∃ (first : Text) (groups : List Text), first.length = integer.length % 3 ∧
      (∀ group ∈ groups, group.length = 3) ∧ first ++ groups.flatten = integer.map digit ∧
      integralPart variation size j integer =
        first ++ groups.flatMap (variation.style.separator :: ·) := by
  induction integer generalizing j with
  | nil => exact ⟨[], [], rfl, by simp, rfl, rfl⟩
  | cons c integer ih =>
    by_cases hthree : (c :: integer).length % 3 = 0
    · obtain ⟨groups, hlength, hflat, hloop⟩ := integralPart_groups hw hdigit hj hsize hthree
      exact ⟨[], groups, hthree.symm, hlength, hflat, hloop⟩
    · obtain ⟨hc, hinteger⟩ := List.forall_mem_cons.mp hdigit
      rw [List.length_cons] at hsize hthree
      obtain ⟨first, groups, hfirst, hlength, hflat, hloop⟩ := ih hinteger (Nat.succ_ne_zero j)
        (by omega)
      refine ⟨digit c :: first, groups, ?_, hlength, ?_, ?_⟩
      · rw [List.length_cons, List.length_cons, hfirst]
        omega
      · rw [List.map_cons, ← hflat]
        rfl
      · rw [integralPart_plain hw hc (.inr (by omega)), hloop]
        rfl

theorem isGrouped_integralPart (hw : Writes variation digit point) {integer : Bytes}
    (hdigit : ∀ c ∈ integer, isDigitByte c = true) :
    IsGrouped variation.style.separator (integralPart variation integer.length 0 integer) ∧
      withoutSeparators variation.style.separator
        (integralPart variation integer.length 0 integer) = integer := by
  obtain ⟨first, groups, hfirst, hne, hlength, hflat, hloop⟩ :
      ∃ (first : Text) (groups : List Text), first.length ≤ 3 ∧ (groups ≠ [] → first ≠ []) ∧
        (∀ group ∈ groups, group.length = 3) ∧ first ++ groups.flatten = integer.map digit ∧
        integralPart variation integer.length 0 integer =
          first ++ groups.flatMap (variation.style.separator :: ·) := by
    cases integer with
    | nil => exact ⟨[], [], by simp, by simp, by simp, rfl, rfl⟩
    | cons c integer =>
      obtain ⟨hc, hinteger⟩ := List.forall_mem_cons.mp hdigit
      obtain ⟨first, groups, hfirst, hlength, hflat, hloop⟩ := integralPart_rest hw hinteger
        Nat.one_ne_zero (Nat.add_comm integer.length 1)
      refine ⟨digit c :: first, groups, ?_, fun _ => List.cons_ne_nil _ _, hlength, ?_, ?_⟩
      · rw [List.length_cons, hfirst]
        omega
      · rw [List.map_cons, ← hflat]
        rfl
      · rw [List.length_cons, integralPart_plain hw hc (.inl rfl), hloop]
        rfl
  have hplain : ∀ d ∈ first ++ groups.flatten, d ≠ variation.style.separator := by
    intro d hd
    rw [hflat, List.mem_map] at hd
    obtain ⟨c, hc, rfl⟩ := hd
    exact hw.digit_ne c (hdigit c hc)
  refine ⟨⟨first, groups, hfirst, hne, hlength, hplain, hloop⟩, ?_⟩
  have hfilter : (first ++ groups.flatMap (variation.style.separator :: ·)).filter
      (· ≠ variation.style.separator) = integer.map digit := by
    rw [← hflat, List.filter_append, List.filter_flatMap]
    congr 1
    · exact List.filter_eq_self.mpr fun d hd =>
        decide_eq_true (hplain d (List.mem_append_left _ hd))
    · refine (List.flatMap_congr fun group hgroup => ?_).trans List.flatMap_id
      rw [List.filter_cons_of_neg (by simp)]
      refine List.filter_eq_self.mpr fun d hd => decide_eq_true (hplain d ?_)
      exact List.mem_append_right _ (List.mem_flatten.mpr ⟨group, hgroup, hd⟩)
  rw [hloop, withoutSeparators, hfilter, List.map_map]
  refine (List.map_congr_left fun c hc => ?_).trans (List.map_id integer)
  exact hw.ascii c (hdigit c hc)

theorem fractionalPart_eq (hw : Writes variation digit point) {fraction : Bytes}
    (hdigit : ∀ c ∈ fraction, isDigitByte c = true) :
    fractionalPart variation fraction = some (fraction.map digit) := by
  induction fraction with
  | nil => rfl
  | cons c fraction ih =>
    obtain ⟨hc, hfraction⟩ := List.forall_mem_cons.mp hdigit
    have hlow : ¬ c < 0x30 := by
      rw [isDigitByte, Bool.and_eq_true, decide_eq_true_eq] at hc
      exact UInt8.not_lt.mpr hc.1
    rw [fractionalPart, if_neg hlow, hw.digits c hc, ih hfraction]
    rfl

end integers

theorem isDecimalNumberLoop_one (str : Bytes) :
    isDecimalNumberLoop 1 str = str.all isDigitByte := by
  induction str with
  | nil => rfl
  | cons c str ih =>
    rw [isDecimalNumberLoop, List.all_cons, ih]
    by_cases hpoint : c = 0x2e
    · rw [if_pos hpoint, if_pos (Nat.le_refl 2), hpoint]
      rfl
    · rw [if_neg hpoint]
      cases isDigitByte c <;> rfl

theorem isDecimalNumber_spec {str : Bytes} (h : isDecimalNumber str = true) :
    (∀ c ∈ str.takeWhile (· ≠ 0x2e), isDigitByte c = true) ∧
      (str.dropWhile (· ≠ 0x2e) = [] ∨ ∃ digits, str.dropWhile (· ≠ 0x2e) = 0x2e :: digits ∧
        ∀ c ∈ digits, isDigitByte c = true) := by
  rw [isDecimalNumber] at h
  induction str with
  | nil => exact ⟨fun c hc => absurd hc List.not_mem_nil, .inl rfl⟩
  | cons c str ih =>
    rw [isDecimalNumberLoop] at h
    by_cases hpoint : c = 0x2e
    · rw [if_pos hpoint, if_neg (by decide), isDecimalNumberLoop_one, List.all_eq_true] at h
      have hstop : ¬ decide (c ≠ 0x2e) = true := by simpa using hpoint
      rw [List.takeWhile_cons, if_neg hstop, List.dropWhile_cons, if_neg hstop]
      exact ⟨fun c hc => absurd hc List.not_mem_nil, .inr ⟨str, by rw [hpoint], h⟩⟩
    · rw [if_neg hpoint] at h
      have hgo : decide (c ≠ 0x2e) = true := decide_eq_true hpoint
      rw [List.takeWhile_cons, if_pos hgo, List.dropWhile_cons, if_pos hgo]
      cases hc : isDigitByte c with
      | false =>
        rw [hc] at h
        cases h
      | true =>
        rw [hc] at h
        obtain ⟨hfirst, hrest⟩ := ih h
        exact ⟨List.forall_mem_cons.mpr ⟨hc, hfirst⟩, hrest⟩

theorem separatedString_spec {variation : SeparatedVariation} {digit : UInt8 → Char} {point : Char}
    (hw : Writes variation digit point) {input : Bytes} (h : isDecimalNumber input = true) :
    ∃ output, separatedString (input.takeWhile (· ≠ 0x2e)) (input.dropWhile (· ≠ 0x2e)) variation =
      some output ∧ Separates input output := by
  obtain ⟨hinteger, hfraction⟩ := isDecimalNumber_spec h
  obtain ⟨hgrouped, hplain⟩ := isGrouped_integralPart hw hinteger
  have hsame := List.takeWhile_append_dropWhile (p := (· ≠ 0x2e)) (l := input)
  rcases hfraction with hnone | ⟨digits, hpoint, hdigits⟩
  · rw [hnone, List.append_nil] at hsame
    refine ⟨_, by rw [hnone]; rfl, ?_, _, [], rfl, hplain, hgrouped, List.not_mem_nil⟩
    dsimp only
    rw [List.append_nil, hplain, hsame]
  · have hfractional := fractionalPart_eq hw hdigits
    have hkept : ∀ d ∈ point :: digits.map digit, d ≠ variation.style.separator := by
      refine List.forall_mem_cons.mpr ⟨hw.point_ne, fun d hd => ?_⟩
      obtain ⟨c, hc, rfl⟩ := List.mem_map.mp hd
      exact hw.digit_ne c (hdigits c hc)
    refine ⟨_, by rw [hpoint, separatedString, hfractional, hw.pointText]; rfl, ?_, _, _, rfl, hplain,
      hgrouped, ?_⟩
    · have hfilter : (point :: digits.map digit).filter (· ≠ variation.style.separator) =
          point :: digits.map digit := by
        refine List.filter_eq_self.mpr fun d hd => decide_eq_true (hkept d hd)
      have hascii : (point :: digits.map digit).map asciiByte = 0x2e :: digits := by
        rw [List.map_cons, hw.asciiPoint, List.map_map]
        refine congrArg (0x2e :: ·) ((List.map_congr_left fun c hc => ?_).trans (List.map_id digits))
        exact hw.ascii c (hdigits c hc)
      dsimp only
      rw [withoutSeparators, List.filter_append, List.map_append, ← withoutSeparators, hplain,
        List.singleton_append, hfilter, hascii, ← hpoint, hsame]
    · exact fun hmem => hkept _ hmem rfl

theorem exists_mapM {variations : List SeparatedVariation}
    {f : SeparatedVariation → Option SeparatedString} {p : SeparatedString → Prop}
    (h : ∀ variation ∈ variations, ∃ output, f variation = some output ∧ p output) :
    ∃ outputs, variations.mapM f = some outputs ∧ ∀ output ∈ outputs, p output := by
  induction variations with
  | nil => exact ⟨[], rfl, fun _ h => absurd h List.not_mem_nil⟩
  | cons variation variations ih =>
    obtain ⟨⟨output, houtput, hp⟩, hrest⟩ := List.forall_mem_cons.mp h
    obtain ⟨outputs, houtputs, hps⟩ := ih hrest
    refine ⟨output :: outputs, ?_, List.forall_mem_cons.mpr ⟨hp, hps⟩⟩
    rw [List.mapM_cons, houtput, houtputs]
    rfl

/-- The function separates every input safely but the empty one, whose first byte it reads. -/
theorem separatesSafely_iff (input : Bytes) : SeparatesSafely input ↔ input ≠ [] := by
  constructor
  · rintro ⟨result, hresult, -⟩ rfl
    cases hresult
  · intro hne
    obtain ⟨first, rest, rfl⟩ := List.exists_cons_of_ne_nil hne
    rw [SeparatesSafely, arabicToSeparatedArabic]
    split
    · exact ⟨none, rfl, fun outputs houtputs => by cases houtputs⟩
    rename_i hdecimal
    rw [Bool.not_eq_true', Bool.not_eq_false] at hdecimal
    dsimp only
    split
    · exact ⟨none, rfl, fun outputs houtputs => by cases houtputs⟩
    have hpoint : (fun c : UInt8 => !decide (c ≠ 0x2e)) = fun c => decide (c = 0x2e) := by
      funext c
      rw [decide_not, Bool.not_not]
    obtain ⟨outputs, houtputs, hseparates⟩ := exists_mapM fun variation hmem =>
      let ⟨_, _, hw⟩ := exists_writes hmem
      separatedString_spec hw hdecimal
    refine ⟨some outputs, ?_, fun outputs' heq => ?_⟩
    · rw [← hpoint, ← List.takeWhile_eq_take_findIdx_not, ← List.dropWhile_eq_drop_findIdx_not,
        houtputs]
      rfl
    · cases heq
      exact hseparates

theorem not_separatesSafely_nil : ¬ SeparatesSafely [] := by
  rintro ⟨result, hresult, -⟩
  cases hresult

end Mozkey.Base.NumberUtil
