import Mozkey.Converter.KeyCorrectorRewrites

/-! The alignment tables of the key corrector: what belongs to what in the key and in the corrected key. -/

namespace Mozkey.Converter

open Base Storage

section rounds

theorem drop_text_take (n : Nat) (cs : List Codepoint) :
    (text cs).drop (text (cs.take n)).length = text (cs.drop n) := by
  conv_lhs => rw [← List.take_append_drop n cs, text_append]
  rw [List.take_append_drop, List.drop_left]

/-- A round on code points, where the history is copied. -/
def roundChars (narrow : Nat → Nat) (copies first : Bool) (c : Codepoint) (cs : List Codepoint) :
    Nat × List Nat :=
  if copies then (1, [c.val]) else (rewriteChars narrow first (c :: cs)).getD (1, [c.val])

theorem round_text (inputBegin keyPos pos : Nat) (c : Codepoint) (cs : List Codepoint) :
    KeyCorrector.round inputBegin keyPos pos (text (c :: cs)) =
      toBytes (c :: cs) (roundChars toUint16 (decide (pos < inputBegin)) (keyPos == 0) c cs) := by
  have hcopy : (c.bytes.length, Util.codepointToUtf8 c) = toBytes (c :: cs) (1, [c.val]) := by
    simp [toBytes]
  rw [KeyCorrector.round, roundChars, utf8ToCodepoint_text, reads_rewrite keyPos (c :: cs)]
  dsimp only
  rw [hcopy]
  by_cases hpos : pos < inputBegin
  · rw [if_pos hpos, if_pos (decide_eq_true hpos)]
  · rw [if_neg hpos, if_neg (by simpa using hpos)]
    cases rewriteChars toUint16 (keyPos == 0) (c :: cs) <;> rfl

theorem roundChars_zero {c : Codepoint} (hc : c.val = 0) (copies first : Bool) (cs : List Codepoint) :
    roundChars toUint16 copies first c cs = (1, [c.val]) := by
  rw [roundChars]
  split
  · rfl
  cases hrewrite : rewriteChars toUint16 first (c :: cs) with
  | none => rfl
  | some result =>
    obtain ⟨hpos, -, hletters, -⟩ := takesLetters_rewrite first (c :: cs) result.1 result.2 hrewrite
    have hmem : c ∈ (c :: cs).take result.1 := by
      obtain ⟨n, hn⟩ : ∃ n, result.1 = n + 1 := ⟨result.1 - 1, by omega⟩
      rw [hn, List.take_succ_cons]
      exact List.mem_cons_self
    exact absurd hc (hletters c hmem)

theorem roundChars_pos {c : Codepoint} (hc : c.val ≠ 0) (copies first : Bool) (cs : List Codepoint) :
    let result := roundChars toUint16 copies first c cs
    0 < result.1 ∧ result.1 ≤ (c :: cs).length ∧ (∀ d ∈ (c :: cs).take result.1, d.val ≠ 0) ∧
      result.2 ≠ [] ∧ ∀ d ∈ result.2, d ≠ 0 ∧ d < 0x110000 := by
  have hlt := c.isLt
  have hcopy : 0 < 1 ∧ 1 ≤ (c :: cs).length ∧ (∀ d ∈ (c :: cs).take 1, d.val ≠ 0) ∧ [c.val] ≠ [] ∧
      ∀ d ∈ [c.val], d ≠ 0 ∧ d < 0x110000 := by
    simp
    omega
  dsimp only
  rw [roundChars]
  split
  · exact hcopy
  cases hrewrite : rewriteChars toUint16 first (c :: cs) with
  | none => exact hcopy
  | some result => exact takesLetters_rewrite first (c :: cs) result.1 result.2 hrewrite

theorem codepointToUtf8_ne_nil {c : Nat} (hpos : c ≠ 0) (hlt : c < 0x110000) :
    Util.codepointToUtf8 c ≠ [] := by
  intro hnil
  have hsplit := splitFirstChar32_codepointToUtf8 hpos (Nat.lt_trans hlt (by decide)) []
  rw [hnil] at hsplit
  cases hsplit

/-- The rounds of `Init` on a text, from one state of the corrector to another. -/
inductive Rounds (inputBegin : Nat) : (keyPos pos : Nat) → List Codepoint → KeyCorrector → KeyCorrector →
    Prop
  | done {keyPos pos : Nat} {corrector : KeyCorrector} : Rounds inputBegin keyPos pos [] corrector corrector
  | round {keyPos pos n : Nat} {c : Codepoint} {cs : List Codepoint} {output : List Nat}
    {corrector last : KeyCorrector}
    (h : roundChars toUint16 (decide (pos < inputBegin)) (keyPos == 0) c cs = (n, output))
    (rest : Rounds inputBegin (keyPos + 1) (pos + (text ((c :: cs).take n)).length) ((c :: cs).drop n)
      (corrector.append pos (text ((c :: cs).take n)).length (output.flatMap Util.codepointToUtf8)) last) :
    Rounds inputBegin keyPos pos (c :: cs) corrector last

theorem rounds_of_initLoop {inputBegin fuel keyPos pos : Nat} {cs : List Codepoint}
    {corrector last : KeyCorrector}
    (h : KeyCorrector.initLoop inputBegin fuel keyPos pos (text cs) corrector = some last) :
    Rounds inputBegin keyPos pos cs corrector last := by
  induction fuel generalizing keyPos pos cs corrector with
  | zero =>
    cases cs with
    | nil =>
      cases h
      exact .done
    | cons c cs =>
      cases htext : text (c :: cs) with
      | nil => simp at htext
      | cons b bs =>
        rw [htext] at h
        cases h
  | succ fuel ih =>
    cases cs with
    | nil =>
      cases h
      exact .done
    | cons c cs =>
      cases htext : text (c :: cs) with
      | nil => simp at htext
      | cons b bs =>
        rw [htext, KeyCorrector.initLoop, ← htext, round_text] at h
        rcases hround : roundChars toUint16 (decide (pos < inputBegin)) (keyPos == 0) c cs with ⟨n, output⟩
        rw [hround] at h
        dsimp only [toBytes] at h
        split at h
        · cases h
        · rw [drop_text_take] at h
          exact .round hround (ih h)

end rounds

section tables

variable {corrector last : KeyCorrector} {pos mblen i j : Nat} {output : Bytes}

theorem getElem?_entries {start size : Nat} (same : Prop) [Decidable same] (hsize : 0 < size) (i j : Nat) :
    (if same then (List.range size).map fun i => some (start + i)
      else some start :: List.replicate (size - 1) none)[i]? = some (some j) ↔
        i < size ∧ j = start + i ∧ (same ∨ i = 0) := by
  by_cases hsame : same
  · rw [if_pos hsame, List.getElem?_map]
    by_cases hi : i < size
    · rw [List.getElem?_range hi]
      simp [hi, hsame, eq_comm]
    · rw [List.getElem?_eq_none (by simpa using hi)]
      simp [hi]
  · rw [if_neg hsame]
    cases i with
    | zero => simp [hsize, eq_comm]
    | succ i =>
      rw [List.getElem?_cons_succ]
      constructor
      · intro h
        have hmem := List.mem_of_getElem? h
        exact absurd (List.eq_of_mem_replicate hmem) (by simp)
      · rintro ⟨-, -, h⟩
        exact absurd h (by simp [hsame])

theorem getElem?_append_iff {α : Type} (xs ys : List α) (i : Nat) (a : α) :
    (xs ++ ys)[i]? = some a ↔ xs[i]? = some a ∨ xs.length ≤ i ∧ ys[i - xs.length]? = some a := by
  by_cases hi : i < xs.length
  · rw [List.getElem?_append_left hi]
    exact ⟨.inl, fun h => h.resolve_right fun hge => by omega⟩
  · rw [List.getElem?_append_right (by omega)]
    refine ⟨fun h => .inr ⟨by omega, h⟩, fun h => (h.resolve_left fun hleft => ?_).2⟩
    obtain ⟨hlt, -⟩ := List.getElem?_eq_some_iff.mp hleft
    exact hi hlt

/-- The tables up to a position of the key: an entry of the one is an entry of the other. -/
structure TablesUpTo (pos : Nat) (corrector : KeyCorrector) : Prop where
  length : corrector.alignment.length = pos
  revLength : corrector.revAlignment.length = corrector.correctedKey.length
  inverse : ∀ i j : Nat,
    corrector.alignment[i]? = some (some j) ↔ corrector.revAlignment[j]? = some (some i)
  increasing : ∀ i i' j j' : Nat, i < i' → corrector.alignment[i]? = some (some j) →
    corrector.alignment[i']? = some (some j') → j < j'

theorem TablesUpTo.lt (h : TablesUpTo pos corrector) (hij : corrector.alignment[i]? = some (some j)) :
    i < pos ∧ j < corrector.correctedKey.length := by
  obtain ⟨hi, -⟩ := List.getElem?_eq_some_iff.mp hij
  obtain ⟨hj, -⟩ := List.getElem?_eq_some_iff.mp ((h.inverse i j).mp hij)
  exact ⟨h.length ▸ hi, h.revLength ▸ hj⟩

theorem length_entries {start size : Nat} (same : Prop) [Decidable same] (hsize : 0 < size) :
    (if same then (List.range size).map fun i => some (start + i)
      else some start :: List.replicate (size - 1) none).length = size := by
  split
  · simp
  · simp
    omega

theorem append_revAlignment (corrector : KeyCorrector) (pos mblen : Nat) (output : Bytes) :
    (corrector.append pos mblen output).revAlignment = corrector.revAlignment ++
      if mblen = output.length then (List.range output.length).map fun i => some (pos + i)
      else some pos :: List.replicate (output.length - 1) none := by
  by_cases hsame : mblen = output.length
  · simp only [KeyCorrector.append, hsame]
  · simp only [KeyCorrector.append, hsame, if_false]

theorem TablesUpTo.append (h : TablesUpTo pos corrector) (hmblen : 0 < mblen) (houtput : output ≠ []) :
    TablesUpTo (pos + mblen) (corrector.append pos mblen output) := by
  have hsize : 0 < output.length := List.length_pos_iff.mpr houtput
  have hforward : ∀ i j : Nat, (corrector.append pos mblen output).alignment[i]? = some (some j) ↔
      corrector.alignment[i]? = some (some j) ∨ pos ≤ i ∧ i - pos < mblen ∧
        j = corrector.correctedKey.length + (i - pos) ∧ (mblen = output.length ∨ i - pos = 0) := by
    intro i j
    rw [KeyCorrector.append, getElem?_append_iff, h.length, getElem?_entries _ hmblen]
  have hback : ∀ i j : Nat, (corrector.append pos mblen output).revAlignment[j]? = some (some i) ↔
      corrector.revAlignment[j]? = some (some i) ∨ corrector.correctedKey.length ≤ j ∧
        j - corrector.correctedKey.length < output.length ∧
        i = pos + (j - corrector.correctedKey.length) ∧
          (mblen = output.length ∨ j - corrector.correctedKey.length = 0) := by
    intro i j
    rw [append_revAlignment, getElem?_append_iff, h.revLength, getElem?_entries _ hsize]
  refine ⟨?_, ?_, fun i j => ?_, fun i i' j j' hlt hij hij' => ?_⟩
  · rw [KeyCorrector.append, List.length_append, length_entries _ hmblen, h.length]
  · rw [append_revAlignment, List.length_append, length_entries _ hsize, h.revLength,
      KeyCorrector.append, List.length_append]
  · rw [hforward, hback, h.inverse]
    refine or_congr_right ⟨?_, ?_⟩
    · rintro ⟨hi, hlt, rfl, hsame⟩
      omega
    · rintro ⟨hj, hlt, rfl, hsame⟩
      omega
  · rcases (hforward i j).mp hij with hold | hnew
    · have hbound := h.lt hold
      rcases (hforward i' j').mp hij' with hold' | hnew'
      · exact h.increasing i i' j j' hlt hold hold'
      · omega
    · rcases (hforward i' j').mp hij' with hold' | hnew'
      · have hbound := h.lt hold'
        omega
      · omega

theorem Rounds.tablesUpTo {inputBegin keyPos pos : Nat} {cs : List Codepoint}
    (h : Rounds inputBegin keyPos pos cs corrector last) (hcs : ∀ c ∈ cs, c.val ≠ 0)
    (htables : TablesUpTo pos corrector) : TablesUpTo (pos + (text cs).length) last := by
  induction h with
  | done => exact htables
  | @round keyPos pos n c cs output corrector last hround _ ih =>
    have hresult := roundChars_pos (hcs c List.mem_cons_self) (decide (pos < inputBegin)) (keyPos == 0) cs
    rw [hround] at hresult
    obtain ⟨hpos, -, -, hne, houtput⟩ := hresult
    have hbytes : output.flatMap Util.codepointToUtf8 ≠ [] := by
      obtain ⟨d, ds, rfl⟩ := List.exists_cons_of_ne_nil hne
      obtain ⟨hd, hdLt⟩ := houtput d List.mem_cons_self
      rw [List.flatMap_cons]
      exact fun h => codepointToUtf8_ne_nil hd hdLt (List.append_eq_nil_iff.mp h).1
    have htaken : 0 < (text ((c :: cs).take n)).length := by
      rw [List.length_pos_iff, Ne, text_eq_nil, List.take_eq_nil_iff]
      simp
      omega
    have hnext := ih (fun d hd => hcs d (List.mem_of_mem_drop hd)) (htables.append htaken hbytes)
    have hlength : (text (c :: cs)).length =
        (text ((c :: cs).take n)).length + (text ((c :: cs).drop n)).length := by
      rw [← List.length_append, ← text_append, List.take_append_drop]
    rw [hlength, ← Nat.add_assoc]
    exact hnext

theorem Rounds.excess {inputBegin keyPos pos excess : Nat} {cs : List Codepoint}
    (h : Rounds inputBegin keyPos pos cs corrector last)
    (hexcess : corrector.revAlignment.length = corrector.correctedKey.length + excess) :
    ∃ excess', last.revAlignment.length = last.correctedKey.length + excess' ∧ excess ≤ excess' ∧
      ((∃ c ∈ cs, c.val = 0) → excess < excess') := by
  induction h generalizing excess with
  | done => exact ⟨excess, hexcess, le_rfl, fun ⟨c, hc, _⟩ => absurd hc List.not_mem_nil⟩
  | @round keyPos pos n c cs output corrector last hround _ ih =>
    by_cases hc : c.val = 0
    · rw [roundChars_zero hc] at hround
      cases hround
      have hbytes : [c.val].flatMap Util.codepointToUtf8 = [] := by
        rw [hc]
        rfl
      have htaken : (text ((c :: cs).take 1)).length ≠ 0 := by
        have hpos := bytes_pos c
        rw [List.take_succ_cons, length_text_cons]
        omega
      rw [hbytes] at ih
      obtain ⟨excess', hlast, hle, -⟩ := @ih (excess + 1) (by
        rw [append_revAlignment, List.length_append, List.length_nil, if_neg htaken,
          KeyCorrector.append, List.append_nil, hexcess]
        rfl)
      exact ⟨excess', hlast, by omega, fun _ => by omega⟩
    · have hresult := roundChars_pos hc (decide (pos < inputBegin)) (keyPos == 0) cs
      rw [hround] at hresult
      obtain ⟨hpos, -, htake, hne, houtput⟩ := hresult
      have hsize : 0 < (output.flatMap Util.codepointToUtf8).length := by
        obtain ⟨d, ds, rfl⟩ := List.exists_cons_of_ne_nil hne
        obtain ⟨hd, hdLt⟩ := houtput d List.mem_cons_self
        rw [List.flatMap_cons, List.length_append]
        have hdPos := List.length_pos_iff.mpr (codepointToUtf8_ne_nil hd hdLt)
        omega
      obtain ⟨excess', hlast, hle, hmore⟩ := @ih excess (by
        rw [append_revAlignment, List.length_append, length_entries _ hsize, KeyCorrector.append,
          List.length_append, hexcess]
        omega)
      refine ⟨excess', hlast, hle, ?_⟩
      rintro ⟨d, hd, hzero⟩
      rw [← List.take_append_drop n (c :: cs), List.mem_append] at hd
      exact hmore ⟨d, hd.resolve_left fun hd => htake d hd hzero, hzero⟩

end tables

namespace KeyCorrector

/-- The tables have an entry for each byte, are inverse to each other wherever both are valid, and grow; an
offset into the key does not lead behind it. -/
structure Aligned (key : Bytes) (corrector : KeyCorrector) : Prop where
  alignmentLength : corrector.alignment.length = key.length
  revAlignmentLength : corrector.revAlignment.length = corrector.correctedKey.length
  inverse : ∀ i j i' : Nat, corrector.alignment[i]? = some (some j) →
    corrector.revAlignment[j]? = some (some i') → i' = i
  revInverse : ∀ i j j' : Nat, corrector.revAlignment[j]? = some (some i) →
    corrector.alignment[i]? = some (some j') → j' = j
  increasing : ∀ i i' j j' : Nat, i < i' → corrector.alignment[i]? = some (some j) →
    corrector.alignment[i']? = some (some j') → j < j'
  revIncreasing : ∀ i i' j j' : Nat, j < j' → corrector.revAlignment[j]? = some (some i) →
    corrector.revAlignment[j']? = some (some i') → i < i'
  offset : ∀ originalKeyPos newKeyOffset length : Nat,
    corrector.getOriginalOffset originalKeyPos newKeyOffset = some length →
      originalKeyPos + length ≤ key.length

theorem aligned_of_tablesUpTo {key : Bytes} {corrector : KeyCorrector} (hkey : key.length < 2 ^ 64)
    (h : TablesUpTo key.length corrector) : Aligned key corrector := by
  have hposition : ∀ {i j : Nat}, corrector.getCorrectedPosition i = some j ↔
      corrector.alignment[i]? = some (some j) := by
    intro i j
    rw [getCorrectedPosition, Option.join_eq_some_iff]
  have hback : ∀ {i j : Nat}, corrector.getOriginalPosition j = some i ↔
      corrector.alignment[i]? = some (some j) := by
    intro i j
    rw [getOriginalPosition, Option.join_eq_some_iff, h.inverse]
  refine ⟨h.length, h.revLength, ?_, ?_, h.increasing, ?_, ?_⟩
  · intro i j i' hij hji
    rw [(h.inverse i j).mp hij] at hji
    simpa [eq_comm] using hji
  · intro i j j' hji hij
    rw [(h.inverse i j).mpr hji] at hij
    simpa [eq_comm] using hij
  · intro i i' j j' hlt hji hji'
    have hij := (h.inverse i j).mpr hji
    have hij' := (h.inverse i' j').mpr hji'
    rcases Nat.lt_trichotomy i i' with hlt' | rfl | hgt
    · exact hlt'
    · rw [hij] at hij'
      cases hij'
      exact absurd hlt (lt_irrefl j)
    · exact absurd (h.increasing i' i j' j hgt hij' hij) (Nat.not_lt.mpr hlt.le)
  · intro pos offset length hoffset
    obtain ⟨j, hj, hresult⟩ := Option.bind_eq_some_iff.mp hoffset
    have hbound := h.lt (hposition.mp hj)
    dsimp only at hresult
    split at hresult
    · -- At the right edge what is left of the key is taken.
      rw [hback.mpr (hposition.mp hj), Option.getD_some, h.length] at hresult
      cases hresult
      omega
    · obtain ⟨i, hi, hlength⟩ := Option.bind_eq_some_iff.mp hresult
      have hend := h.lt (hback.mp hi)
      split at hlength
      · cases hlength
        omega
      · cases hlength

/-- The tables of a text are aligned exactly if there is no U+0000 in it, which has a byte in the key but
none in the corrected key. -/
theorem init_aligned_iff {cs : List Codepoint} {mode : InputMode} {historySize : Nat}
    {corrector : KeyCorrector} (h : init (text cs) mode historySize = some corrector) :
    Aligned (text cs) corrector ↔ ∀ c ∈ cs, c.val ≠ 0 := by
  rw [init] at h
  split at h
  · cases h
  split at h
  · cases h
  rename_i hkey
  have hrounds := rounds_of_initLoop h
  constructor
  · intro haligned c hc hzero
    obtain ⟨excess, hlast, -, hmore⟩ := hrounds.excess
      (show ([] : List (Option Nat)).length = ([] : Bytes).length + 0 from rfl)
    have hlength := haligned.revAlignmentLength
    have hpos := hmore ⟨c, hc, hzero⟩
    omega
  · intro hcs
    have hempty : TablesUpTo 0 { originalKey := text cs } :=
      ⟨rfl, rfl, fun i j => by simp, fun i i' j j' _ hij => by simp at hij⟩
    have htables := hrounds.tablesUpTo hcs hempty
    rw [Nat.zero_add] at htables
    refine aligned_of_tablesUpTo ?_ htables
    rw [not_or, Nat.not_le, kMaxSize] at hkey
    omega

/-- The key of "minna" with an "n" too few. -/
theorem init_aligned_minna :
    ∃ corrector, init (text [0x307f, 0x3093, 0x3042]) .roman 0 = some corrector ∧
      (Aligned (text [0x307f, 0x3093, 0x3042]) corrector ↔
        ∀ c ∈ [0x307f, 0x3093, 0x3042], (c : Codepoint).val ≠ 0) := by
  have hsome : (init (text [0x307f, 0x3093, 0x3042]) .roman 0).isSome := by decide +kernel
  obtain ⟨corrector, hcorrector⟩ := Option.isSome_iff_exists.mp hsome
  exact ⟨corrector, hcorrector, init_aligned_iff hcorrector⟩

/-- One U+0000 has an entry for a byte of the corrected key, which is empty. -/
theorem not_init_aligned : ¬ ∀ (cs : List Codepoint) (mode : InputMode) (historySize : Nat)
    (corrector : KeyCorrector), init (text cs) mode historySize = some corrector →
      Aligned (text cs) corrector := by
  intro h
  have haligned := h [0] .roman 0 { originalKey := [0], alignment := [some 0], revAlignment := [some 0] }
    (by decide)
  exact absurd haligned.revAlignmentLength (by decide)

end KeyCorrector

end Mozkey.Converter
