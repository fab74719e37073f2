import Mozkey.Converter.KeyCorrectorAlignment

/-! The documented patterns of the key corrector, over all of Unicode, and where the `uint16_t` variables of
the code take other code points for them. -/

namespace Mozkey.Converter

open Base Storage

/-- The bytes of code points, where U+0000 has one, too. -/
def bytesOf (cs : List Nat) : Bytes := cs.flatMap fun c => if c = 0 then [0] else Util.codepointToUtf8 c

def vowels : List Nat := [0x3042, 0x3044, 0x3046, 0x3048, 0x304a]

/-- The patterns of the comments: what matches, what stands behind it, and what is put for the match. -/
inductive Pattern (first : Bool) : (matched rest : List Codepoint) → (output : List Nat) → Prop
  | nn {n vowel : Codepoint} {rest : List Codepoint} {output : Nat} (hfirst : first = false)
    (hn : n.val = 0x3093) (hvowel : nnOutput vowel = some output) :
    Pattern first [n, vowel] rest [0x3093, output]
  | doubleNNVowel {c n n' next : Codepoint} {rest : List Codepoint} (hc : isHiragana c)
    (hne : c.val ≠ 0x3093) (hn : n.val = 0x3093) (hn' : n'.val = 0x3093) (hnext : next.val ∈ vowels) :
    Pattern first [c, n] (n' :: next :: rest) [c]
  | doubleNN {c n n' next : Codepoint} {rest : List Codepoint} (hc : isHiragana c)
    (hne : c.val ≠ 0x3093) (hn : n.val = 0x3093) (hn' : n'.val = 0x3093) (hnext : next.val ≠ 0x3093)
    (hvowel : next.val ∉ vowels) : Pattern first [c, n, n'] (next :: rest) [c, 0x3093]
  | yu {c next last : Codepoint} {rest : List Codepoint}
    (hc : c.val ∈ [0x304d, 0x3057, 0x3061, 0x306b, 0x3072, 0x308a]) (hnext : next.val = 0x3085)
    (hlast : last.val ≠ 0x3046) : Pattern first [c, next] (last :: rest) [c, 0x3085, 0x3046]
  | ni {c next : Codepoint} {rest : List Codepoint} {output : Nat} (hc : c.val = 0x306b)
    (hnext : niOutput next = some output) : Pattern first [c, next] rest [0x3093, output]
  | smallTSU {c t t' d : Codepoint} {rest : List Codepoint} (hc : isHiragana c) (hne : c.val ≠ 0x3063)
    (ht : t.val = 0x3063) (ht' : t'.val = 0x3063) (hd : isHiragana d) (hdNe : d.val ≠ 0x3063) :
    Pattern first [c, t, t', d] rest [c, 0x3063, d]
  | m {c next : Codepoint} {rest : List Codepoint} (hfirst : first = false)
    (hc : c.val = 0x006d ∨ c.val = 0xff4d) (hnext : next.val % 3 ≠ 0)
    (hrange : 0x306f ≤ next.val ∧ next.val ≤ 0x307d) : Pattern first [c, next] rest [0x3093, next]

/-- The key with documented patterns replaced behind the history, and every other code point copied. -/
inductive Corrects (inputBegin : Nat) : (first : Bool) → (pos : Nat) → List Codepoint → List Nat → Prop
  | nil {first : Bool} {pos : Nat} : Corrects inputBegin first pos [] []
  | copy {first : Bool} {pos : Nat} {c : Codepoint} {cs : List Codepoint} {output : List Nat}
    (rest : Corrects inputBegin false (pos + c.bytes.length) cs output) :
    Corrects inputBegin first pos (c :: cs) (c.val :: output)
  | pattern {first : Bool} {pos : Nat} {matched cs : List Codepoint} {replaced output : List Nat}
    (hpos : inputBegin ≤ pos) (h : Pattern first matched cs replaced)
    (rest : Corrects inputBegin false (pos + (text matched).length) cs output) :
    Corrects inputBegin first pos (matched ++ cs) (replaced ++ output)

/-- Code points above U+FFFF stand where their low 16 bits make up a pattern, or are taken over by one in
their low 16 bits. -/
def Misreads (first : Bool) : List Codepoint → Prop
  | c :: next :: rest =>
    (0x10000 ≤ next.val ∧
      ((first = false ∧ c.val = 0x3093 ∧ (nnOutput (toUint16 next)).isSome) ∨
        (c.val = 0x306b ∧ (niOutput (toUint16 next)).isSome) ∨
        (first = false ∧ (c.val = 0x006d ∨ c.val = 0xff4d) ∧ toUint16 next % 3 ≠ 0 ∧
          0x306f ≤ toUint16 next ∧ toUint16 next ≤ 0x307d))) ∨
    (c.val = 0x1b001 ∧ next.val = 0x3093 ∧
      ∃ n' d rest', rest = n' :: d :: rest' ∧ n'.val = 0x3093 ∧ d.val ≠ 0x3093) ∨
    (c.val ≠ 0x3063 ∧ isHiragana c ∧ next.val = 0x3063 ∧
      ∃ t' d rest', rest = t' :: d :: rest' ∧ t'.val = 0x3063 ∧ d.val ≠ 0x3063 ∧ isHiragana d ∧
        (c.val = 0x1b001 ∨ d.val = 0x1b001))
  | _ => False

/-- The correction as documented comes to no U+0000, and behind the history to no place that is misread. -/
inductive ReadsRight (inputBegin : Nat) : (first : Bool) → (pos : Nat) → List Codepoint → Prop
  | nil {first : Bool} {pos : Nat} : ReadsRight inputBegin first pos []
  | round {first : Bool} {pos n : Nat} {c : Codepoint} {cs : List Codepoint} {output : List Nat}
    (hc : c.val ≠ 0) (hreads : inputBegin ≤ pos → ¬ Misreads first (c :: cs))
    (h : roundChars id (decide (pos < inputBegin)) first c cs = (n, output))
    (rest : ReadsRight inputBegin false (pos + (text ((c :: cs).take n)).length) ((c :: cs).drop n)) :
    ReadsRight inputBegin first pos (c :: cs)

section documented

theorem isHiragana_cases {c : Nat} (h : isHiragana c = true) :
    (0x3041 ≤ c ∧ c ≤ 0x309f) ∨ c = 0x1b001 := by
  simpa [isHiragana] using h

theorem toUint16_of_lt {c : Nat} (h : c < 0x10000) : toUint16 c = c := Nat.mod_eq_of_lt h

theorem nnOutput_of_le {c : Nat} (h : 0x10000 ≤ c) : nnOutput c = none := by
  rw [nnOutput.eq_def]
  split <;> first | omega | rfl

theorem niOutput_of_le {c : Nat} (h : 0x10000 ≤ c) : niOutput c = none := by
  rw [niOutput.eq_def]
  split <;> first | omega | rfl

variable {first : Bool} {cs : List Codepoint}

theorem rewriteChars_eq (h : ¬ Misreads first cs) :
    rewriteChars toUint16 first cs = rewriteChars id first cs := by
  have hNN : charsNN toUint16 first cs = charsNN id first cs := by
    rcases first with _ | _
    swap
    · rfl
    rcases cs with _ | ⟨c, _ | ⟨next, cs⟩⟩
    · rfl
    · rfl
    rw [charsNN, charsNN]
    split
    · rename_i hc
      by_cases hnext : next.val < 0x10000
      · rw [toUint16_of_lt hnext, id]
      · have hnone : nnOutput (toUint16 next) = none := by
          rw [← Option.not_isSome_iff_eq_none]
          exact fun hsome => h (.inl ⟨Nat.le_of_not_lt hnext, .inl ⟨rfl, hc, hsome⟩⟩)
        rw [hnone, id, nnOutput_of_le (Nat.le_of_not_lt hnext)]
    · rfl
  have hNI : charsNI toUint16 first cs = charsNI id first cs := by
    rcases cs with _ | ⟨c, _ | ⟨next, cs⟩⟩
    · rfl
    · rfl
    rw [charsNI, charsNI]
    split
    · rename_i hc
      by_cases hnext : next.val < 0x10000
      · rw [toUint16_of_lt hnext, id]
      · have hnone : niOutput (toUint16 next) = none := by
          rw [← Option.not_isSome_iff_eq_none]
          exact fun hsome => h (.inl ⟨Nat.le_of_not_lt hnext, .inr (.inl ⟨hc, hsome⟩)⟩)
        rw [hnone, id, niOutput_of_le (Nat.le_of_not_lt hnext)]
    · rfl
  have hM : charsM toUint16 first cs = charsM id first cs := by
    rcases first with _ | _
    swap
    · rfl
    rcases cs with _ | ⟨c, _ | ⟨next, cs⟩⟩
    · rfl
    · rfl
    rw [charsM, charsM]
    by_cases hnext : next.val < 0x10000
    · rw [toUint16_of_lt hnext, id]
    · rw [if_neg, if_neg]
      · rintro ⟨-, -, -, hle⟩
        rw [id] at hle
        omega
      · rintro ⟨hc, hmod, hge, hle⟩
        exact h (.inl ⟨Nat.le_of_not_lt hnext, .inr (.inr ⟨rfl, hc, hmod, hge, hle⟩)⟩)
  have hDoubleNN : charsDoubleNN toUint16 first cs = charsDoubleNN id first cs := by
    rcases cs with _ | ⟨c, _ | ⟨n, _ | ⟨n', _ | ⟨next, cs⟩⟩⟩⟩
    · rfl
    · rfl
    · rfl
    · rfl
    by_cases hc : c.val < 0x10000
    · rw [charsDoubleNN, charsDoubleNN, toUint16_of_lt hc, id]
    · rw [charsDoubleNN, charsDoubleNN, if_neg, if_neg]
      · rintro ⟨⟨-, hhiragana, -⟩, hn, hn', hnext⟩
        have hye : c.val = 0x1b001 := (isHiragana_cases hhiragana).resolve_left fun h => by omega
        exact h (.inr (.inl ⟨hye, hn, n', next, cs, rfl, hn', hnext⟩))
      · rintro ⟨⟨-, hhiragana, -⟩, hn, hn', hnext⟩
        have hye : c.val = 0x1b001 := (isHiragana_cases hhiragana).resolve_left fun h => by omega
        exact h (.inr (.inl ⟨hye, hn, n', next, cs, rfl, hn', hnext⟩))
  have hSmallTSU : charsSmallTSU toUint16 first cs = charsSmallTSU id first cs := by
    rcases cs with _ | ⟨c, _ | ⟨t, _ | ⟨t', _ | ⟨d, cs⟩⟩⟩⟩
    · rfl
    · rfl
    · rfl
    · rfl
    by_cases hsmall : c.val < 0x10000 ∧ d.val < 0x10000
    · rw [charsSmallTSU, charsSmallTSU, toUint16_of_lt hsmall.1, toUint16_of_lt hsmall.2, id, id]
    · have hmisread : c.val ≠ 0x3063 → isHiragana c = true → t.val = 0x3063 → t'.val = 0x3063 →
          d.val ≠ 0x3063 → isHiragana d = true → False := by
        intro hne hc ht ht' hdNe hd
        have hcCases := isHiragana_cases hc
        have hdCases := isHiragana_cases hd
        exact h (.inr (.inr ⟨hne, hc, ht, t', d, cs, rfl, ht', hdNe, hd, by omega⟩))
      rw [charsSmallTSU, charsSmallTSU, if_neg, if_neg]
      · rintro ⟨⟨hne, hc, -⟩, ht, ht', hdNe, hd, -⟩
        exact hmisread hne hc ht ht' hdNe hd
      · rintro ⟨⟨hne, hc, -⟩, ht, ht', hdNe, hd, -⟩
        exact hmisread hne hc ht ht' hdNe hd
  rw [rewriteChars, rewriteChars, hNN, hNI, hM, hDoubleNN, hSmallTSU]

theorem pattern_of_rewriteChars {n : Nat} {output : List Nat}
    (h : rewriteChars id first cs = some (n, output)) : Pattern first (cs.take n) (cs.drop n) output := by
  rw [rewriteChars] at h
  simp only [Option.orElse_eq_orElse, Option.orElse_eq_or, Option.or_eq_some_iff] at h
  rcases h with h | ⟨-, h | ⟨-, h | ⟨-, h | ⟨-, h | ⟨-, h⟩⟩⟩⟩⟩
  · rw [charsDoubleNN.eq_def] at h
    split at h
    · split at h
      · rename_i hn
        obtain ⟨⟨hne, hc, -⟩, hn, hn', hnext⟩ := hn
        split at h
        · rename_i hvowel
          cases h
          exact .doubleNNVowel hc hne hn hn' hvowel
        · rename_i hvowel
          cases h
          exact .doubleNN hc hne hn hn' hnext hvowel
      · cases h
    · cases h
  · rw [charsNN.eq_def] at h
    split at h
    · split at h
      · rename_i hn
        obtain ⟨letter, hvowel, hresult⟩ := Option.map_eq_some_iff.mp h
        cases hresult
        exact .nn rfl hn hvowel
      · cases h
    · cases h
  · rw [charsYu.eq_def] at h
    split at h
    · split at h
      · rename_i hyu
        cases h
        exact .yu hyu.1 hyu.2.1 hyu.2.2
      · cases h
    · cases h
  · rw [charsNI.eq_def] at h
    split at h
    · split at h
      · rename_i hn
        obtain ⟨letter, hletter, hresult⟩ := Option.map_eq_some_iff.mp h
        cases hresult
        exact .ni hn hletter
      · cases h
    · cases h
  · rw [charsSmallTSU.eq_def] at h
    split at h
    · split at h
      · rename_i htsu
        obtain ⟨⟨hne, hc, -⟩, ht, ht', hdNe, hd, -⟩ := htsu
        cases h
        exact .smallTSU hc hne ht ht' hd hdNe
      · cases h
    · cases h
  · rw [charsM.eq_def] at h
    split at h
    · split at h
      · rename_i hm
        cases h
        exact .m rfl hm.1 hm.2.1 hm.2.2
      · cases h
    · cases h

/-- A code point that no pattern puts anywhere or takes away. -/
def isOdd (c : Nat) : Bool := c == 0 || 0x10000 ≤ c

theorem isOdd_of_lt {c : Nat} (hpos : c ≠ 0) (hlt : c < 0x10000) : isOdd c = false := by
  simp [isOdd, hpos, hlt]

theorem Pattern.countP_isOdd {matched rest : List Codepoint} {output : List Nat}
    (h : Pattern first matched rest output) :
    output.countP isOdd = matched.countP fun c => isOdd c.val := by
  cases h with
  | nn _ hn hvowel =>
    obtain ⟨hpos, hout, hlt⟩ := nnOutput_eq_some hvowel
    have hvowelLt := Nat.lt_of_not_le fun hle => by
      rw [nnOutput_of_le hle] at hvowel
      cases hvowel
    simp only [List.countP_cons, List.countP_nil, hn, isOdd_of_lt hpos hvowelLt, isOdd_of_lt hout hlt]
  | doubleNNVowel _ _ hn _ _ => simp [List.countP_cons, hn, isOdd]
  | doubleNN _ _ hn hn' _ _ => simp [List.countP_cons, hn, hn', isOdd]
  | yu _ hnext _ => simp [List.countP_cons, hnext, isOdd]
  | ni hc hnext =>
    obtain ⟨hpos, hout, hlt⟩ := niOutput_eq_some hnext
    have hnextLt := Nat.lt_of_not_le fun hle => by
      rw [niOutput_of_le hle] at hnext
      cases hnext
    simp only [List.countP_cons, List.countP_nil, hc, isOdd_of_lt hpos hnextLt, isOdd_of_lt hout hlt]
    rfl
  | smallTSU _ _ ht ht' _ _ => simp [List.countP_cons, ht, ht', isOdd]
  | m _ hc _ hrange =>
    rcases hc with hc | hc <;> simp [List.countP_cons, hc, isOdd]

theorem countP_isOdd_eq_zero {output : List Nat} (h : ∀ c ∈ output, c ≠ 0 ∧ c < 0x10000) :
    output.countP isOdd = 0 :=
  List.countP_eq_zero.mpr fun c hc => by simp [isOdd_of_lt (h c hc).1 (h c hc).2]

theorem countP_isOdd_pos {taken : List Codepoint} {c : Codepoint} (hc : c ∈ taken)
    (hbig : 0x10000 ≤ c.val) : 0 < taken.countP fun c => isOdd c.val :=
  List.countP_pos_iff.mpr ⟨c, hc, by simp [isOdd, hbig]⟩

theorem rewriteChars_of_misreads (h : Misreads first cs) :
    ∃ n output, rewriteChars toUint16 first cs = some (n, output) ∧
      output.countP isOdd < (cs.take n).countP fun c => isOdd c.val := by
  rcases cs with _ | ⟨c, _ | ⟨next, rest⟩⟩
  · cases h
  · cases h
  rcases h with ⟨hbig, ⟨hfirst, hc, hvowel⟩ | ⟨hc, hletter⟩ | ⟨hfirst, hc, hm⟩⟩ |
    ⟨hc, hn, n', d, rest', rfl, hn', hd⟩ | ⟨hne, hc, ht, t', d, rest', rfl, ht', hdNe, hd, hye⟩
  · subst hfirst
    obtain ⟨output, houtput⟩ := Option.isSome_iff_exists.mp hvowel
    obtain ⟨-, hpos, hlt⟩ := nnOutput_eq_some houtput
    have hdouble : charsDoubleNN toUint16 false (c :: next :: rest) = none := by
      rcases rest with _ | ⟨n', _ | ⟨d, rest⟩⟩ <;> simp [charsDoubleNN, hc]
    refine ⟨2, [0x3093, output], ?_, ?_⟩
    · simp [rewriteChars, hdouble, charsNN, hc, houtput]
    · rw [countP_isOdd_eq_zero (by simp [hpos, hlt])]
      exact @countP_isOdd_pos _ next (by simp) hbig
  · obtain ⟨output, houtput⟩ := Option.isSome_iff_exists.mp hletter
    obtain ⟨-, hpos, hlt⟩ := niOutput_eq_some houtput
    have hn : next.val ≠ 0x3093 := by omega
    have hyu : next.val ≠ 0x3085 := by omega
    have hdouble : charsDoubleNN toUint16 first (c :: next :: rest) = none := by
      rcases rest with _ | ⟨n', _ | ⟨d, rest⟩⟩ <;> simp [charsDoubleNN, hn]
    have hnn : charsNN toUint16 first (c :: next :: rest) = none := by
      cases first <;> simp [charsNN, hc]
    have hnone : charsYu first (c :: next :: rest) = none := by
      rcases rest with _ | ⟨last, rest⟩ <;> simp [charsYu, hyu]
    refine ⟨2, [0x3093, output], ?_, ?_⟩
    · simp [rewriteChars, hdouble, hnn, hnone, charsNI, hc, houtput]
    · rw [countP_isOdd_eq_zero (by simp [hpos, hlt])]
      exact @countP_isOdd_pos _ next (by simp) hbig
  · subst hfirst
    have hhiragana : isHiragana c = false := by rcases hc with hc | hc <;> rw [hc] <;> rfl
    have hcne : c.val ≠ 0x3093 ∧ c.val ≠ 0x306b := by omega
    have hyuHead : c.val ∉ [0x304d, 0x3057, 0x3061, 0x306b, 0x3072, 0x308a] := by
      rcases hc with hc | hc <;> rw [hc] <;> decide
    have hdouble : charsDoubleNN toUint16 false (c :: next :: rest) = none := by
      rcases rest with _ | ⟨n', _ | ⟨d, rest⟩⟩ <;> simp [charsDoubleNN, hhiragana]
    have hnn : charsNN toUint16 false (c :: next :: rest) = none := by
      simp [charsNN, hcne]
    have hyu : charsYu false (c :: next :: rest) = none := by
      rcases rest with _ | ⟨last, rest⟩
      · rfl
      · rw [charsYu, if_neg fun h => hyuHead h.1]
    have hni : charsNI toUint16 false (c :: next :: rest) = none := by simp [charsNI, hcne]
    have htsu : charsSmallTSU toUint16 false (c :: next :: rest) = none := by
      rcases rest with _ | ⟨t', _ | ⟨d, rest⟩⟩ <;> simp [charsSmallTSU, hhiragana]
    refine ⟨2, [0x3093, toUint16 next], ?_, ?_⟩
    · simp only [rewriteChars, hdouble, hnn, hyu, hni, htsu, charsM, if_pos (And.intro hc hm)]
      rfl
    · rw [countP_isOdd_eq_zero (by simp; omega)]
      exact @countP_isOdd_pos _ next (by simp) hbig
  · have hchars : (c.val ≠ 0x3093 ∧ isHiragana c ∧ toUint16 c ≠ 0) ∧ next.val = 0x3093 ∧
        n'.val = 0x3093 ∧ d.val ≠ 0x3093 := by
      rw [hc]
      exact ⟨by decide, hn, hn', hd⟩
    have hlt : toUint16 c ≠ 0 ∧ toUint16 c < 0x10000 := by
      rw [hc]
      decide
    rw [rewriteChars, charsDoubleNN, if_pos hchars]
    split
    · refine ⟨2, [toUint16 c], rfl, ?_⟩
      rw [countP_isOdd_eq_zero (by simpa using hlt)]
      exact @countP_isOdd_pos _ c (by simp) (by omega)
    · refine ⟨3, [toUint16 c, 0x3093], rfl, ?_⟩
      rw [countP_isOdd_eq_zero (by simpa using hlt)]
      exact @countP_isOdd_pos _ c (by simp) (by omega)
  · have hlow : ∀ {e : Nat}, isHiragana e = true → toUint16 e ≠ 0 ∧ toUint16 e < 0x10000 := by
      intro e he
      rcases isHiragana_cases he with hrange | rfl
      · rw [toUint16_of_lt (by omega)]
        omega
      · decide
    obtain ⟨hcPos, hcLt⟩ := hlow hc
    obtain ⟨hdPos, hdLt⟩ := hlow hd
    have hnext : next.val ≠ 0x3093 ∧ next.val ≠ 0x3085 := by omega
    have hdouble : charsDoubleNN toUint16 first (c :: next :: t' :: d :: rest') = none := by
      simp [charsDoubleNN, hnext]
    have hnn : charsNN toUint16 first (c :: next :: t' :: d :: rest') = none := by
      have hnone : nnOutput (toUint16 next) = none := by rw [ht]; rfl
      cases first <;> simp [charsNN, hnone]
    have hyu : charsYu first (c :: next :: t' :: d :: rest') = none := by simp [charsYu, hnext]
    have hni : charsNI toUint16 first (c :: next :: t' :: d :: rest') = none := by
      have hnone : niOutput (toUint16 next) = none := by rw [ht]; rfl
      simp [charsNI, hnone]
    refine ⟨4, [toUint16 c, 0x3063, toUint16 d], ?_, ?_⟩
    · simp [rewriteChars, hdouble, hnn, hyu, hni, charsSmallTSU, hne, hc, ht, ht', hdNe, hd, hcPos, hdPos]
    · rw [countP_isOdd_eq_zero (by simp [hcPos, hcLt, hdPos, hdLt])]
      rcases hye with hye | hye
      · exact @countP_isOdd_pos _ c (by simp) (by omega)
      · exact @countP_isOdd_pos _ d (by simp) (by omega)

end documented

section rounds

variable {inputBegin keyPos pos : Nat} {first : Bool} {cs : List Codepoint} {output : List Nat}

theorem bytesOf_append (cs ds : List Nat) : bytesOf (cs ++ ds) = bytesOf cs ++ bytesOf ds :=
  List.flatMap_append

theorem bytesOf_eq {cs : List Nat} (h : ∀ c ∈ cs, c ≠ 0) :
    bytesOf cs = cs.flatMap Util.codepointToUtf8 := by
  rw [bytesOf]
  exact List.flatMap_congr fun c hc => if_neg (h c hc)

theorem bytesOf_map (cs : List Codepoint) : bytesOf (cs.map Fin.val) = text cs := by
  rw [bytesOf, List.flatMap_map, text]
  refine List.flatMap_congr fun c _ => ?_
  rw [Codepoint.bytes]
  by_cases hc : c = 0
  · subst hc
    rfl
  · have hval : c.val ≠ 0 := fun h => hc (Fin.ext h)
    rw [if_neg hc, if_neg hval]

theorem bytesOf_injective {cs ds : List Nat} (hcs : ∀ c ∈ cs, c < 0x110000)
    (hds : ∀ c ∈ ds, c < 0x110000) (h : bytesOf cs = bytesOf ds) : cs = ds := by
  obtain ⟨cs, rfl⟩ : ∃ cs' : List Codepoint, cs'.map Fin.val = cs := by
    refine ⟨cs.attach.map fun c => ⟨c.1, hcs c.1 c.2⟩, ?_⟩
    rw [List.map_map]
    exact cs.attach_map_subtype_val
  obtain ⟨ds, rfl⟩ : ∃ ds' : List Codepoint, ds'.map Fin.val = ds := by
    refine ⟨ds.attach.map fun c => ⟨c.1, hds c.1 c.2⟩, ?_⟩
    rw [List.map_map]
    exact ds.attach_map_subtype_val
  rw [bytesOf_map, bytesOf_map] at h
  rw [← utf8ToUtf32_text, ← utf8ToUtf32_text, h]

theorem Pattern.lt {matched rest : List Codepoint} (h : Pattern first matched rest output) :
    ∀ c ∈ output, c < 0x110000 := by
  cases h with
  | nn _ _ hvowel =>
    have hlt := (nnOutput_eq_some hvowel).2.2
    simp
    omega
  | doubleNNVowel => simp
  | doubleNN => simp
  | yu => simp
  | ni _ hnext =>
    have hlt := (niOutput_eq_some hnext).2.2
    simp
    omega
  | smallTSU => simp
  | m => simp

theorem Corrects.lt (h : Corrects inputBegin first pos cs output) : ∀ c ∈ output, c < 0x110000 := by
  induction h with
  | nil => simp
  | @copy _ _ c _ _ _ ih => exact List.forall_mem_cons.mpr ⟨c.isLt, ih⟩
  | pattern _ hpattern _ ih => exact List.forall_mem_append.mpr ⟨hpattern.lt, ih⟩

theorem Corrects.countP_isOdd (h : Corrects inputBegin first pos cs output) :
    output.countP isOdd = cs.countP fun c => isOdd c.val := by
  induction h with
  | nil => rfl
  | copy _ ih => rw [List.countP_cons, List.countP_cons, ih]
  | pattern _ hpattern _ ih => rw [List.countP_append, List.countP_append, hpattern.countP_isOdd, ih]

theorem roundChars_id {copies : Bool} {c : Codepoint} {n : Nat}
    (h : roundChars id copies first c cs = (n, output)) :
    (n = 1 ∧ output = [c.val]) ∨
      (copies = false ∧ Pattern first ((c :: cs).take n) ((c :: cs).drop n) output) := by
  rw [roundChars] at h
  split at h
  · cases h
    exact .inl ⟨rfl, rfl⟩
  rename_i hcopies
  cases hrewrite : rewriteChars id first (c :: cs) with
  | none =>
    rw [hrewrite] at h
    cases h
    exact .inl ⟨rfl, rfl⟩
  | some result =>
    rw [hrewrite] at h
    obtain rfl : result = (n, output) := h
    exact .inr ⟨by simpa using hcopies, pattern_of_rewriteChars hrewrite⟩

theorem roundChars_eq {c : Codepoint} (h : inputBegin ≤ pos → ¬ Misreads first (c :: cs)) :
    roundChars toUint16 (decide (pos < inputBegin)) first c cs =
      roundChars id (decide (pos < inputBegin)) first c cs := by
  rw [roundChars, roundChars]
  by_cases hpos : pos < inputBegin
  · rw [if_pos (decide_eq_true hpos), if_pos (decide_eq_true hpos)]
  · rw [rewriteChars_eq (h (Nat.le_of_not_lt hpos))]

/-- What the rounds write: a documented correction where all is read right, and otherwise with fewer of the
code points that are in no pattern. -/
theorem Rounds.writes {corrector last : KeyCorrector}
    (h : Rounds inputBegin keyPos pos cs corrector last) :
    ∃ output, last.correctedKey = corrector.correctedKey ++ bytesOf output ∧
      (∀ c ∈ output, c < 0x110000) ∧
      output.countP isOdd ≤ cs.countP (fun c => isOdd c.val) ∧
      (ReadsRight inputBegin (keyPos == 0) pos cs → Corrects inputBegin (keyPos == 0) pos cs output) ∧
      (output.countP isOdd = cs.countP (fun c => isOdd c.val) →
        ReadsRight inputBegin (keyPos == 0) pos cs) := by
  induction h with
  | done => exact ⟨[], by simp [bytesOf], by simp, le_rfl, fun _ => .nil, fun _ => .nil⟩
  | @round keyPos pos n c cs output corrector last hround _ ih =>
    obtain ⟨rest, hkey, hlt, hle, hcorrects, hreads⟩ := ih
    have hkeyAppend : last.correctedKey =
        corrector.correctedKey ++ (output.flatMap Util.codepointToUtf8 ++ bytesOf rest) := by
      rw [hkey, KeyCorrector.append, List.append_assoc]
    have hcount : (c :: cs).countP (fun c => isOdd c.val) =
        ((c :: cs).take n).countP (fun c => isOdd c.val) +
          ((c :: cs).drop n).countP (fun c => isOdd c.val) := by
      rw [← List.countP_append, List.take_append_drop]
    by_cases hc : c.val = 0
    · -- U+0000 is lost.
      rw [roundChars_zero hc] at hround
      cases hround
      have hodd : 0 < ([c] : List Codepoint).countP fun c => isOdd c.val := by simp [isOdd, hc]
      refine ⟨rest, ?_, hlt, ?_, ?_, ?_⟩
      · rw [hkeyAppend, hc]
        rfl
      · exact hcount ▸ Nat.le_add_left_of_le hle
      · intro hright
        cases hright with
        | round hne => exact absurd hc hne
      · intro heq
        rw [hcount] at heq
        simp only [List.take_succ_cons, List.take_zero] at heq
        omega
    have hresult := roundChars_pos hc (decide (pos < inputBegin)) (keyPos == 0) cs
    rw [hround] at hresult
    obtain ⟨-, -, -, -, houtput⟩ := hresult
    have hbytes : output.flatMap Util.codepointToUtf8 ++ bytesOf rest = bytesOf (output ++ rest) := by
      rw [bytesOf_append, bytesOf_eq fun d hd => (houtput d hd).1]
    have hall : ∀ d ∈ output ++ rest, d < 0x110000 :=
      List.forall_mem_append.mpr ⟨fun d hd => (houtput d hd).2, hlt⟩
    refine ⟨output ++ rest, hbytes ▸ hkeyAppend, hall, ?_⟩
    rw [hcount, List.countP_append]
    by_cases hright : inputBegin ≤ pos → ¬ Misreads (keyPos == 0) (c :: cs)
    · have hround' := (roundChars_eq hright).symm.trans hround
      have hsame : output.countP isOdd = ((c :: cs).take n).countP fun c => isOdd c.val := by
        rcases roundChars_id hround' with ⟨rfl, rfl⟩ | ⟨-, hpattern⟩
        · simp [List.countP_cons]
        · exact hpattern.countP_isOdd
      refine ⟨by omega, fun hreadsRight => ?_, fun heq => ?_⟩
      · cases hreadsRight with
        | round _ _ hround'' hrest =>
          obtain ⟨rfl, rfl⟩ := Prod.mk.inj (hround'.symm.trans hround'')
          have hnext := hcorrects hrest
          rcases roundChars_id hround' with ⟨rfl, rfl⟩ | ⟨hbehind, hpattern⟩
          · rw [List.take_succ_cons, List.take_zero, length_text_cons, text_nil, List.length_nil,
              Nat.add_zero] at hnext
            exact .copy hnext
          · have hpos : inputBegin ≤ pos := Nat.le_of_not_lt (of_decide_eq_false hbehind)
            have happlied := Corrects.pattern hpos hpattern hnext
            rwa [List.take_append_drop] at happlied
      · exact .round hc hright hround' (hreads (by omega))
    · -- The misread code point is lost.
      rw [Classical.not_imp, not_not] at hright
      obtain ⟨hpos, hmisreads⟩ := hright
      obtain ⟨m, replaced, hrewrite, hless⟩ := rewriteChars_of_misreads hmisreads
      have hround' : (m, replaced) = (n, output) := by
        rw [← hround, roundChars, if_neg (by simpa using hpos), hrewrite]
        rfl
      obtain ⟨rfl, rfl⟩ := Prod.mk.inj hround'
      refine ⟨by omega, fun hreadsRight => ?_, fun heq => by omega⟩
      cases hreadsRight with
      | round _ hnot => exact absurd hmisreads (hnot hpos)

end rounds

namespace KeyCorrector

/-- The corrected key is the key with documented patterns replaced behind the history exactly if the correction
comes to no U+0000 and to no place that is misread. -/
theorem init_corrects_iff {cs : List Codepoint} {mode : InputMode} {historySize : Nat}
    {corrector : KeyCorrector} (h : init (text cs) mode historySize = some corrector) :
    (∃ output, Corrects (min (text cs).length historySize) true 0 cs output ∧
      corrector.correctedKey = bytesOf output) ↔
      ReadsRight (min (text cs).length historySize) true 0 cs := by
  rw [init] at h
  split at h
  · cases h
  split at h
  · cases h
  obtain ⟨output, hkey, hlt, -, hcorrects, hreads⟩ := (rounds_of_initLoop h).writes
  rw [List.nil_append] at hkey
  constructor
  · rintro ⟨documented, hdocumented, hsame⟩
    obtain rfl := bytesOf_injective hlt hdocumented.lt (hkey.symm.trans hsame)
    exact hreads hdocumented.countP_isOdd
  · exact fun hright => ⟨output, hcorrects hright, hkey⟩

theorem init_corrects_minna :
    ∃ corrector, init (text [0x307f, 0x3093, 0x3042]) .roman 0 = some corrector ∧
      ((∃ output, Corrects (min (text [0x307f, 0x3093, 0x3042]).length 0) true 0
          [0x307f, 0x3093, 0x3042] output ∧ corrector.correctedKey = bytesOf output) ↔
        ReadsRight (min (text [0x307f, 0x3093, 0x3042]).length 0) true 0 [0x307f, 0x3093, 0x3042]) := by
  have hsome : (init (text [0x307f, 0x3093, 0x3042]) .roman 0).isSome := by decide +kernel
  obtain ⟨corrector, hcorrector⟩ := Option.isSome_iff_exists.mp hsome
  exact ⟨corrector, hcorrector, init_corrects_iff hcorrector⟩

/-- U+13042 has the low 16 bits of the vowel behind the "n" that is read for "na". -/
theorem not_init_corrects : ¬ ∀ (cs : List Codepoint) (mode : InputMode) (historySize : Nat)
    (corrector : KeyCorrector), init (text cs) mode historySize = some corrector →
      ∃ output, Corrects (min (text cs).length historySize) true 0 cs output ∧
        corrector.correctedKey = bytesOf output := by
  intro h
  have hsome : (init (text [0x3042, 0x3093, 0x13042]) .roman 0).map correctedKey =
      some (bytesOf [0x3042, 0x3093, 0x306a]) := by decide +kernel
  obtain ⟨corrector, hcorrector, hkey⟩ := Option.map_eq_some_iff.mp hsome
  obtain ⟨output, hcorrects, hsame⟩ := h _ _ _ corrector hcorrector
  obtain rfl := bytesOf_injective (by decide) hcorrects.lt (hkey.symm.trans hsame)
  exact absurd hcorrects.countP_isOdd (by decide)

end KeyCorrector

end Mozkey.Converter
