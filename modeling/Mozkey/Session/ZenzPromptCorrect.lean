import Mozkey.Session.ZenzPromptFields

/-! Which prompts of `ZenzPromptBuilder` are read back as the fields that they were built of. -/

namespace Mozkey.Session

open Storage Base

namespace ZenzPromptBuilder

/-- The code points up to the first bytes that cannot be decoded, and what stands from there on. -/
def decodePrefixLoop : Nat → Bytes → List Nat × Bytes
  | 0, input => ([], input)
  | fuel + 1, input =>
    match decodeOneUtf8 input with
    | none => ([], input)
    | some (cp, rest) => (cp :: (decodePrefixLoop fuel rest).1, (decodePrefixLoop fuel rest).2)

def decodePrefix (input : Bytes) : List Nat × Bytes := decodePrefixLoop input.length input

theorem trailing_spec : ∀ x < 64, UInt8.ofNat (0x80 ||| x) ≠ 0xee ∧
    (UInt8.ofNat (0x80 ||| x) = 0xb8 → x = 0x38) ∧
    ∀ field : Field, UInt8.ofNat (0x80 ||| x) = field.lastByte → x < 8 := by
  have hlast : ∀ x < 64, ∀ field ∈ [Field.reading, .output, .context, .profile, .topic, .style,
      .settings, .rightContext], UInt8.ofNat (0x80 ||| x) = field.lastByte → x < 8 := by decide
  have hother : ∀ x < 64, UInt8.ofNat (0x80 ||| x) ≠ 0xee ∧
      (UInt8.ofNat (0x80 ||| x) = 0xb8 → x = 0x38) := by decide
  intro x hx
  refine ⟨(hother x hx).1, (hother x hx).2, fun field => hlast x hx field ?_⟩
  cases field <;> decide

theorem leading_spec : (∀ x < 32, UInt8.ofNat (0xc0 ||| x) ≠ 0xee) ∧
    (∀ x < 16, UInt8.ofNat (0xe0 ||| x) = 0xee → x = 0x0e) ∧
    ∀ x < 8, UInt8.ofNat (0xf0 ||| x) ≠ 0xee := by decide

theorem splitFields_appendUtf8 {cp : Nat} (hlt : cp < 0x200000) (hmarker : ¬ (0xee00 ≤ cp ∧ cp ≤ 0xee07))
    (s : Bytes) :
    splitFields (appendUtf8 cp ++ s) = (appendUtf8 cp ++ (splitFields s).1, (splitFields s).2) := by
  have hmod : ∀ n, n % 64 < 64 := fun n => Nat.mod_lt n (by decide)
  have htrailing : ∀ shift, (cp >>> shift) &&& 0x3f = cp / 2 ^ shift % 64 := fun shift =>
    low_bits cp shift 6
  have hsix : (cp >>> 6) &&& 0x1f = cp / 64 % 32 := low_bits cp 6 5
  have htwelve : (cp >>> 12) &&& 0x0f = cp / 4096 % 16 := low_bits cp 12 4
  have heighteen : (cp >>> 18) &&& 0x07 = cp / 262144 % 8 := low_bits cp 18 3
  have hbyte : ∀ n, UInt8.ofNat (0x80 ||| n % 64) ≠ 0xee := fun n => (trailing_spec _ (hmod n)).1
  rw [appendUtf8]
  simp only [htrailing, hsix, htwelve, heighteen]
  split
  · rename_i hascii
    have hne : UInt8.ofNat cp ≠ 0xee := by
      intro heq
      have hnat := congrArg UInt8.toNat heq
      rw [UInt8.toNat_ofNat', Nat.mod_eq_of_lt (by omega)] at hnat
      have hee : (0xee : UInt8).toNat = 0xee := rfl
      omega
    exact splitFields_cons_of_ne hne s
  split
  · have hlead := leading_spec.1 (cp / 64 % 32) (Nat.mod_lt _ (by decide))
    simp only [List.cons_append, List.nil_append]
    rw [splitFields_cons_of_ne hlead, splitFields_cons_of_ne (hbyte _)]
    rfl
  split
  · rename_i hthree
    simp only [List.cons_append, List.nil_append]
    rw [splitFields_cons, splitFields_cons_of_ne (hbyte _), splitFields_cons_of_ne (hbyte _)]
    · rfl
    · rintro field ⟨rest, heq⟩
      simp only [Field.marker, List.cons_append, List.nil_append, List.cons.injEq] at heq
      have hlead := leading_spec.2.1 _ (Nat.mod_lt _ (by decide)) heq.1.symm
      have hmiddle := (trailing_spec _ (hmod _)).2.1 heq.2.1.symm
      have hlast := (trailing_spec _ (hmod _)).2.2 field heq.2.2.1.symm
      omega
  · have hlead := leading_spec.2.2 (cp / 262144 % 8) (Nat.mod_lt _ (by decide))
    simp only [List.cons_append, List.nil_append]
    rw [splitFields_cons_of_ne hlead, splitFields_cons_of_ne (hbyte _),
      splitFields_cons_of_ne (hbyte _), splitFields_cons_of_ne (hbyte _)]
    rfl

/-- What is decoded is one of the code points that `AppendUtf8` writes without loss. -/
def Plain (cp : Nat) : Prop := cp < 0x200000 ∧ ¬ (0xee00 ≤ cp ∧ cp ≤ 0xee07)

theorem splitFields_flatMap {cps : List Nat} (h : ∀ cp ∈ cps, Plain cp) (s : Bytes) :
    splitFields (cps.flatMap appendUtf8 ++ s) =
      (cps.flatMap appendUtf8 ++ (splitFields s).1, (splitFields s).2) := by
  induction cps with
  | nil => rfl
  | cons cp cps ih =>
    obtain ⟨hlt, hmarker⟩ := h cp List.mem_cons_self
    rw [List.flatMap_cons, List.append_assoc, splitFields_appendUtf8 hlt hmarker,
      ih fun other hmem => h other (List.mem_cons_of_mem _ hmem), List.append_assoc]

theorem noMarker_of_splitFields {s : Bytes} (h : (splitFields s).1 = s) : NoMarker s :=
  h ▸ (noMarker_splitFields s).1

theorem noMarker_flatMap_append {cps : List Nat} {s : Bytes} (h : ∀ cp ∈ cps, Plain cp)
    (hs : NoMarker s) : NoMarker (cps.flatMap appendUtf8 ++ s) := by
  apply noMarker_of_splitFields
  rw [splitFields_flatMap h, splitFields_of_noMarker hs]

theorem sanitizeLoop_eq (maxChars : Nat) (fuel chars : Nat) (input : Bytes) :
    ∃ cps : List Nat, (∀ cp ∈ cps, Plain cp) ∧
      sanitizeLoop maxChars fuel chars input = cps.flatMap appendUtf8 := by
  induction fuel generalizing chars input with
  | zero => exact ⟨[], nofun, rfl⟩
  | succ fuel ih =>
    rw [sanitizeLoop]
    split
    · exact ⟨[], nofun, rfl⟩
    rcases hdecode : decodeOneUtf8 input with _ | ⟨cp, rest⟩
    · exact ⟨[], nofun, rfl⟩
    dsimp only
    split
    · exact ih chars rest
    rename_i hcontrol
    split
    · split
      · obtain ⟨cps, hplain, heq⟩ := ih (chars + 1) rest
        refine ⟨0x20 :: cps, ?_, by rw [heq]; rfl⟩
        intro other hmem
        rcases List.mem_cons.mp hmem with rfl | hmem
        · exact ⟨by decide, by decide⟩
        · exact hplain other hmem
      · exact ih chars rest
    · obtain ⟨cps, hplain, heq⟩ := ih (chars + 1) rest
      refine ⟨cp :: cps, ?_, by rw [heq, List.flatMap_cons]⟩
      intro other hmem
      rcases List.mem_cons.mp hmem with rfl | hmem
      · refine ⟨(decodeOneUtf8_spec hdecode).1, ?_⟩
        rintro ⟨hlow, hhigh⟩
        refine hcontrol ?_
        rw [isZenzControlCodepoint, Bool.and_eq_true]
        exact ⟨decide_eq_true hlow, decide_eq_true (by omega)⟩
      · exact hplain other hmem

theorem noMarker_sanitizeConditionText (input : Bytes) (maxChars : Nat) :
    NoMarker (sanitizeConditionText input maxChars) := by
  obtain ⟨cps, hplain, heq⟩ := sanitizeLoop_eq maxChars input.length 0 input
  have h := noMarker_flatMap_append hplain noMarker_nil
  rw [List.append_nil, ← heq] at h
  exact h

def toKatakana (cp : Nat) : Nat := if 0x3041 ≤ cp ∧ cp ≤ 0x3096 then cp + 0x60 else cp

theorem hiraganaToKatakanaLoop_eq {fuel : Nat} {input : Bytes} (hfuel : input.length ≤ fuel) :
    hiraganaToKatakanaLoop fuel input =
      (decodePrefixLoop fuel input).1.flatMap (fun cp => appendUtf8 (toKatakana cp)) ++
        (decodePrefixLoop fuel input).2 := by
  induction fuel generalizing input with
  | zero =>
    obtain rfl := List.length_eq_zero_iff.mp (Nat.le_zero.mp hfuel)
    rfl
  | succ fuel ih =>
    rw [hiraganaToKatakanaLoop, decodePrefixLoop]
    rcases hdecode : decodeOneUtf8 input with _ | ⟨cp, rest⟩
    · rfl
    · have hshorter := (decodeOneUtf8_spec hdecode).2
      dsimp only
      rw [ih (by omega), List.flatMap_cons, List.append_assoc]
      rfl

theorem decodePrefixLoop_lt {fuel : Nat} {input : Bytes} {cp : Nat}
    (h : cp ∈ (decodePrefixLoop fuel input).1) : cp < 0x200000 := by
  induction fuel generalizing input with
  | zero => cases h
  | succ fuel ih =>
    rw [decodePrefixLoop] at h
    rcases hdecode : decodeOneUtf8 input with _ | ⟨c, rest⟩
    · rw [hdecode] at h
      cases h
    · rw [hdecode] at h
      rcases List.mem_cons.mp h with rfl | h
      · exact (decodeOneUtf8_spec hdecode).1
      · exact ih h

theorem appendUtf8_marker {cp : Nat} (h : 0xee00 ≤ cp ∧ cp ≤ 0xee07) :
    ∃ field : Field, appendUtf8 cp = field.marker := by
  obtain ⟨x, hx, rfl⟩ : ∃ x < 8, cp = 0xee00 + x := ⟨cp - 0xee00, by omega, by omega⟩
  have hall : ∀ x < 8, ∃ field ∈ [Field.reading, .output, .context, .profile, .topic, .style,
      .settings, .rightContext], appendUtf8 (0xee00 + x) = field.marker := by decide
  obtain ⟨field, -, heq⟩ := hall x hx
  exact ⟨field, heq⟩

theorem toKatakana_marker {cp : Nat} (h : cp < 0x200000) :
    Plain (toKatakana cp) ↔ ¬ (0xee00 ≤ cp ∧ cp ≤ 0xee07) := by
  unfold Plain toKatakana
  split <;> omega

/-- The katakana of a reading hold no marker exactly if its code points are none, up to where it
cannot be decoded, and no marker stands in the rest. -/
theorem noMarker_hiraganaToKatakana_iff (reading : Bytes) :
    NoMarker (hiraganaToKatakana reading) ↔
      (∀ cp ∈ (decodePrefix reading).1, ¬ (0xee00 ≤ cp ∧ cp ≤ 0xee07)) ∧
        NoMarker (decodePrefix reading).2 := by
  have heq := hiraganaToKatakanaLoop_eq (le_refl reading.length)
  rw [hiraganaToKatakana, heq, ← List.flatMap_map, ← decodePrefix]
  constructor
  · intro h
    refine ⟨?_, fun field hother => h field (hother.trans (List.suffix_append _ _).isInfix)⟩
    intro cp hmem hmarker
    obtain ⟨field, hfield⟩ := appendUtf8_marker hmarker
    have hkatakana : toKatakana cp = cp := if_neg (by omega)
    refine h field (List.IsInfix.trans ?_ (List.prefix_append _ _).isInfix)
    rw [← hfield]
    obtain ⟨before, after, hsplit⟩ := List.append_of_mem hmem
    rw [hsplit, List.map_append, List.map_cons, hkatakana, List.flatMap_append, List.flatMap_cons]
    exact ⟨_, _, (List.append_assoc _ _ _)⟩
  · rintro ⟨hcps, hrest⟩
    apply noMarker_flatMap_append _ hrest
    intro cp hmem
    obtain ⟨c, hc, rfl⟩ := List.mem_map.mp hmem
    exact (toKatakana_marker (decodePrefixLoop_lt hc)).mpr (hcps c hc)

def optionalField (field : Field) (text : Bytes) : List (Field × Bytes) :=
  if text = [] then [] else [(field, text)]

/-- The fields of a prompt. -/
def promptFields (reading : Bytes) (options : ZenzPromptOptions) : List (Field × Bytes) :=
  [(.context, sanitizeConditionText options.leftContext 0)] ++
    optionalField .rightContext (sanitizeConditionText options.rightContext 0) ++
    optionalField .profile (sanitizeConditionText options.profile kMaxZenzConditionChars) ++
    optionalField .topic (sanitizeConditionText options.topic kMaxZenzConditionChars) ++
    optionalField .style (sanitizeConditionText options.style kMaxZenzConditionChars) ++
    optionalField .settings (sanitizeConditionText options.settings kMaxZenzConditionChars) ++
    [(.reading, hiraganaToKatakana reading), (.output, [])]

def fieldOrder : List Field :=
  [.context, .rightContext, .profile, .topic, .style, .settings, .reading, .output]

theorem joinFields_append (fields fields' : List (Field × Bytes)) :
    joinFields (fields ++ fields') = joinFields fields ++ joinFields fields' := List.flatMap_append

theorem joinFields_optionalField (field : Field) (text : Bytes) :
    joinFields (optionalField field text) = appendField field text := by
  rw [optionalField, appendField]
  split
  · rfl
  · rw [joinFields, List.flatMap_singleton]

theorem build_eq_joinFields (reading : Bytes) (options : ZenzPromptOptions) :
    build reading options = joinFields (promptFields reading options) := by
  simp only [build, promptFields, joinFields_append, joinFields_optionalField, List.append_assoc]
  simp [joinFields]

theorem sublist_optionalField (field : Field) (text : Bytes) :
    ((optionalField field text).map Prod.fst).Sublist [field] := by
  rw [optionalField]
  split
  · exact List.nil_sublist _
  · exact List.Sublist.refl _

theorem promptFields_order (reading : Bytes) (options : ZenzPromptOptions) :
    ((promptFields reading options).map Prod.fst).Sublist fieldOrder := by
  simp only [promptFields, List.map_append]
  exact (((((((List.Sublist.refl [Field.context]).append (sublist_optionalField _ _)).append
    (sublist_optionalField _ _)).append (sublist_optionalField _ _)).append
    (sublist_optionalField _ _)).append (sublist_optionalField _ _)).append
    (List.Sublist.refl [Field.reading, Field.output]))

/-- A prompt is read back by its markers as the fields that it was built of, each marker at most once
and in the fixed order, with the reading and the output at the end, exactly if the reading holds no
marker. -/
theorem splitFields_build_iff (reading : Bytes) (options : ZenzPromptOptions) :
    (splitFields (build reading options) = ([], promptFields reading options) ↔
      (∀ cp ∈ (decodePrefix reading).1, ¬ (0xee00 ≤ cp ∧ cp ≤ 0xee07)) ∧
        ∀ field : Field, ¬ field.marker <:+: (decodePrefix reading).2) ∧
    ((promptFields reading options).map Prod.fst).Sublist fieldOrder ∧
    ∃ fields, promptFields reading options =
      fields ++ [(.reading, hiraganaToKatakana reading), (.output, [])] := by
  refine ⟨?_, promptFields_order reading options, ⟨_, rfl⟩⟩
  rw [build_eq_joinFields]
  have hiff := noMarker_hiraganaToKatakana_iff reading
  constructor
  · intro h
    refine hiff.mp ?_
    have htexts := (noMarker_splitFields (joinFields (promptFields reading options))).2
    rw [h] at htexts
    exact htexts (.reading, hiraganaToKatakana reading)
      (List.mem_append_right _ List.mem_cons_self)
  · intro h
    apply splitFields_joinFields
    intro e he
    have hoptional : ∀ (field : Field) (input : Bytes) (maxChars : Nat),
        e ∈ optionalField field (sanitizeConditionText input maxChars) → NoMarker e.2 := by
      intro field input maxChars hmem
      rw [optionalField] at hmem
      split at hmem
      · cases hmem
      · rw [List.mem_singleton.mp hmem]
        exact noMarker_sanitizeConditionText input maxChars
    simp only [promptFields, List.mem_append, or_assoc] at he
    rcases he with he | he | he | he | he | he | he
    · rw [List.mem_singleton.mp he]
      exact noMarker_sanitizeConditionText _ _
    · exact hoptional _ _ _ he
    · exact hoptional _ _ _ he
    · exact hoptional _ _ _ he
    · exact hoptional _ _ _ he
    · exact hoptional _ _ _ he
    · simp only [List.mem_cons, List.not_mem_nil, or_false] at he
      rcases he with rfl | rfl
      · exact hiff.mpr h
      · exact noMarker_nil

/-- A reading that is the marker of the output. -/
theorem not_splitFields_build :
    ¬ ∀ (reading : Bytes) (options : ZenzPromptOptions),
      splitFields (build reading options) = ([], promptFields reading options) := by
  intro hall
  exact absurd (hall [0xee, 0xb8, 0x81] {}) (by decide)

end ZenzPromptBuilder

end Mozkey.Session
