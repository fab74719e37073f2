import Mozkey.Base.NumberReading

/-! What `ArabicToKanji` writes is read back by `NormalizeNumbers`: a segment is written as a group,
and the segments with their big ranks are a sequence of groups with falling big units. -/

namespace Mozkey.Base.NumberUtil

/-! The value of digits. -/

theorem base10From_eq (n : Nat) (ds : List Nat) :
    base10From n ds = n * 10 ^ ds.length + base10 ds := by
  induction ds generalizing n with
  | nil => simp [base10From, base10]
  | cons d ds ih =>
    have hcons : ∀ m, base10From m (d :: ds) = base10From (m * 10 + d) ds := fun _ => rfl
    rw [base10, hcons, hcons, ih, ih, List.length_cons, pow_succ]
    ring

@[simp] theorem base10_nil : base10 [] = 0 := rfl

theorem base10_cons (d : Nat) (ds : List Nat) :
    base10 (d :: ds) = d * 10 ^ ds.length + base10 ds := by
  have hcons : base10 (d :: ds) = base10From (0 * 10 + d) ds := rfl
  rw [hcons, base10From_eq, Nat.zero_mul, Nat.zero_add]

theorem base10_append (ds es : List Nat) :
    base10 (ds ++ es) = base10 ds * 10 ^ es.length + base10 es := by
  have happend : base10 (ds ++ es) = base10From (base10 ds) es := List.foldl_append
  rw [happend, base10From_eq]

@[simp] theorem base10_zero_cons (ds : List Nat) : base10 (0 :: ds) = base10 ds := by
  rw [base10_cons, Nat.zero_mul, Nat.zero_add]

theorem base10_dropWhile (ds : List Nat) : base10 (ds.dropWhile (· == 0)) = base10 ds := by
  induction ds with
  | nil => rfl
  | cons d ds ih =>
    rw [List.dropWhile_cons]
    split
    · rename_i hzero
      rw [beq_iff_eq.mp hzero, ih, base10_zero_cons]
    · rfl

theorem base10_pos {d : Nat} (hpos : 0 < d) (ds : List Nat) : 0 < base10 (d :: ds) := by
  rw [base10_cons]
  have := Nat.mul_pos hpos (Nat.pow_pos (n := ds.length) (show 0 < 10 by decide))
  omega

theorem base10_lt {ds : List Nat} (hds : ∀ d ∈ ds, d < 10) : base10 ds < 10 ^ ds.length := by
  induction ds with
  | nil => decide
  | cons d ds ih =>
    rw [List.forall_mem_cons] at hds
    rw [base10_cons, List.length_cons, pow_succ]
    have hmul : d * 10 ^ ds.length ≤ 9 * 10 ^ ds.length :=
      Nat.mul_le_mul_right _ (Nat.le_of_lt_succ hds.1)
    have := ih hds.2
    omega

/-! The decimal digits. -/

theorem forall_asciiDigit {p : Char → Prop} (h : ∀ n < 10, p n.digitChar) {c : Char}
    (hc : isAsciiDigit c = true) : p c := by
  rw [isAsciiDigit, Bool.and_eq_true, decide_eq_true_eq, decide_eq_true_eq] at hc
  rw [← Char.ofNat_toNat c]
  generalize c.toNat = n at hc ⊢
  obtain ⟨hlo, hhi⟩ := hc
  change 48 ≤ n at hlo
  change n ≤ 57 at hhi
  have hchar : Char.ofNat n = (n - 48).digitChar := by
    interval_cases n <;> decide
  rw [hchar]
  exact h _ (by omega)

theorem digitOf_lt {c : Char} (h : isAsciiDigit c = true) : digitOf c < 10 :=
  forall_asciiDigit (p := fun c => digitOf c < 10) (by decide) h

theorem digitOf_pos {c : Char} (h : isAsciiDigit c = true) : c ≠ '0' → 0 < digitOf c :=
  forall_asciiDigit (p := fun c => c ≠ '0' → 0 < digitOf c) (by decide) h

theorem digitChar_digitOf {c : Char} (h : isAsciiDigit c = true) : (digitOf c).digitChar = c :=
  forall_asciiDigit (p := fun c => (digitOf c).digitChar = c) (by decide) h

theorem toDigits_base10 {c : Char} {str : Text} (hdigit : ∀ d ∈ c :: str, isAsciiDigit d = true)
    (hne : c ≠ '0') : Nat.toDigits 10 (base10 ((c :: str).map digitOf)) = c :: str := by
  induction str using List.reverseRecOn with
  | nil =>
    have hc := hdigit c (by simp)
    rw [List.map_singleton, base10_cons, List.length_nil, pow_zero, Nat.mul_one, base10_nil,
      Nat.add_zero, Nat.toDigits_of_lt_base (digitOf_lt hc), digitChar_digitOf hc]
  | append_singleton str d ih =>
    have hc := hdigit c (by simp)
    have hd := hdigit d (by simp)
    have hstr : ∀ d ∈ c :: str, isAsciiDigit d = true := by
      intro e he
      exact hdigit e (by rw [← List.cons_append]; exact List.mem_append_left _ he)
    have hpos : 0 < base10 ((c :: str).map digitOf) := base10_pos (digitOf_pos hc hne) _
    rw [← List.cons_append, List.map_append, List.map_singleton, base10_append, List.length_singleton,
      pow_one, Nat.mul_comm, base10_cons (digitOf d), List.length_nil, pow_zero, Nat.mul_one,
      base10_nil, Nat.add_zero,
      ← Nat.toDigits_append_toDigits (by decide) hpos (digitOf_lt hd),
      Nat.toDigits_of_lt_base (digitOf_lt hd), digitChar_digitOf hd, ih hstr]

theorem toDigits_trim {str : Text} (hdigit : ∀ c ∈ str, isAsciiDigit c = true)
    (hpos : 0 < base10 (str.map digitOf)) :
    Nat.toDigits 10 (base10 (str.map digitOf)) = str.dropWhile (· == '0') := by
  induction str with
  | nil => exact absurd hpos (by decide)
  | cons c str ih =>
    rw [List.dropWhile_cons]
    split
    · rename_i hzero
      obtain rfl : c = '0' := beq_iff_eq.mp hzero
      have hcons : base10 (('0' :: str).map digitOf) = base10 (str.map digitOf) :=
        base10_zero_cons _
      rw [hcons] at hpos ⊢
      exact ih (fun d hd => hdigit d (List.mem_cons_of_mem _ hd)) hpos
    · rename_i hne
      exact toDigits_base10 hdigit fun h => hne (beq_iff_eq.mpr h)

/-! The numbers that a text stands for. -/

def Spells (text : Text) (numbers : List Nat) : Prop :=
  text.mapM kanjiNumberToArabicNumber = some numbers

theorem spells_nil : Spells [] [] := rfl

theorem Spells.append {s t : Text} {xs ys : List Nat} (hs : Spells s xs) (ht : Spells t ys) :
    Spells (s ++ t) (xs ++ ys) := by
  unfold Spells at *
  rw [List.mapM_append, hs, ht]
  rfl

theorem Spells.nil_iff {text : Text} {numbers : List Nat} (h : Spells text numbers) :
    text = [] ↔ numbers = [] := by
  unfold Spells at h
  cases text with
  | nil =>
    cases h
    simp
  | cons c text =>
    rw [List.mapM_cons, Option.bind_eq_bind, Option.bind_eq_some_iff] at h
    obtain ⟨n, -, h⟩ := h
    rw [Option.bind_eq_bind, Option.bind_eq_some_iff] at h
    obtain ⟨ns, -, h⟩ := h
    cases h
    simp

theorem spells_kanjiDigit {c : Char} (h : isAsciiDigit c = true) :
    c ≠ '0' → Spells (kNumKanjiDigits.getD (digitOf c) []) [digitOf c] :=
  forall_asciiDigit (p := fun c => c ≠ '0' → Spells (kNumKanjiDigits.getD (digitOf c) [])
    [digitOf c]) (by unfold Spells; decide) h

theorem spells_halfWidthDigit {c : Char} (h : isAsciiDigit c = true) :
    Spells (kNumHalfWidthDigits.getD (digitOf c) []) [digitOf c] :=
  forall_asciiDigit (p := fun c => Spells (kNumHalfWidthDigits.getD (digitOf c) []) [digitOf c])
    (by unfold Spells; decide) h

theorem spells_fullWidthDigit {c : Char} (h : isAsciiDigit c = true) :
    Spells (kNumFullWidthDigits.getD (digitOf c) []) [digitOf c] :=
  forall_asciiDigit (p := fun c => Spells (kNumFullWidthDigits.getD (digitOf c) []) [digitOf c])
    (by unfold Spells; decide) h

theorem spells_rank {m : Nat} (h : m ≤ 2) :
    Spells (kNumKanjiRanks.getD (m + 2) []) [10 ^ (m + 1)] := by
  unfold Spells
  interval_cases m <;> decide

theorem spells_biggerRank {r : Nat} (h : r ≤ 3) :
    Spells (kNumKanjiBiggerRanks.getD (r + 1) []) [10 ^ (4 * (r + 1))] := by
  unfold Spells
  interval_cases r <;> decide

/-! Segments. -/

/-- A segment is written as a group of its value, or as nothing if that is zero. -/
def WritesSegment (variation : NumberStringVariation) (segment : Text) : Prop :=
  ∃ numbers, Spells (segmentLoop variation kNumKanjiRanks 0 true segment) numbers ∧
    Group 3 numbers (base10 (segment.map digitOf)) ∧
    (numbers = [] ∨ 0 < base10 (segment.map digitOf))

theorem segmentLoop_kanji {variation : NumberStringVariation}
    (hstyle : variation.style = .numberKanji) (hdigits : variation.digits = kNumKanjiDigits)
    {segment : Text} (hdigit : ∀ c ∈ segment, isAsciiDigit c = true) {i : Nat}
    (hlen : segment.length + i = 4) (leading : Bool) :
    ∃ numbers, Spells (segmentLoop variation kNumKanjiRanks i leading segment) numbers ∧
      (∀ k, segment.length ≤ k + 1 → Group k numbers (base10 (segment.map digitOf))) ∧
      (numbers = [] ∨ 0 < base10 (segment.map digitOf)) := by
  induction segment generalizing i leading with
  | nil => exact ⟨[], spells_nil, fun _ _ => .nil, .inl rfl⟩
  | cons c segment ih =>
    rw [List.forall_mem_cons] at hdigit
    rw [List.length_cons] at hlen
    rw [List.map_cons, List.length_cons]
    by_cases hzero : c = '0'
    · subst hzero
      have hloop : segmentLoop variation kNumKanjiRanks i leading ('0' :: segment) =
          segmentLoop variation kNumKanjiRanks (i + 1) leading segment := by
        cases leading <;> simp [segmentLoop, hstyle, Style.isArabicAndKanji]
      obtain ⟨numbers, hspells, hgroup, hpos⟩ := ih (i := i + 1) hdigit.2 (by omega) leading
      have hvalue : base10 (digitOf '0' :: segment.map digitOf) = base10 (segment.map digitOf) :=
        base10_zero_cons _
      rw [hloop, hvalue]
      exact ⟨numbers, hspells, fun k hk => hgroup k (by omega), hpos⟩
    · obtain ⟨numbers, hspells, hgroup, -⟩ := ih (i := i + 1) hdigit.2 (by omega) false
      have hd := digitOf_lt hdigit.1
      have hdpos := digitOf_pos hdigit.1 hzero
      have hdspells := spells_kanjiDigit hdigit.1 hzero
      have hloop : segmentLoop variation kNumKanjiRanks i leading (c :: segment) =
          (if i = 3 ∨ c ≠ '1' then kNumKanjiDigits.getD (digitOf c) [] else []) ++
            kNumKanjiRanks.getD (4 - i) [] ++
              segmentLoop variation kNumKanjiRanks (i + 1) false segment := by
        simp [segmentLoop, hstyle, hdigits, Style.isArabicAndKanji, hzero, kDigitsInBigRank]
      rw [hloop]
      cases segment with
      | nil =>
        rw [List.length_nil] at hlen
        obtain rfl : i = 3 := by omega
        refine ⟨[digitOf c], ?_, fun k _ => ?_, .inr (base10_pos hdpos _)⟩
        · rw [if_pos (.inl rfl)]
          exact (hdspells.append spells_nil).append spells_nil
        · rw [List.map_nil, base10_cons, List.length_nil, pow_zero, Nat.mul_one]
          exact .ones hd fun h => by omega
      | cons c' segment =>
        rw [List.length_cons] at hlen hgroup ⊢
        have hrank : Spells (kNumKanjiRanks.getD (4 - i) []) [10 ^ (segment.length + 1)] := by
          rw [show 4 - i = segment.length + 2 by omega]
          exact spells_rank (by omega)
        have hvalue := base10_cons (digitOf c) ((c' :: segment).map digitOf)
        rw [List.length_map, List.length_cons] at hvalue
        rw [hvalue]
        by_cases hone : c = '1'
        · subst hone
          refine ⟨[] ++ [10 ^ (segment.length + 1)] ++ numbers, ?_, fun k hk => ?_, .inr ?_⟩
          · rw [if_neg (by simp; omega)]
            exact (spells_nil.append hrank).append hspells
          · have hone : digitOf '1' * 10 ^ (segment.length + 1) = 10 ^ (segment.length + 1) :=
              Nat.one_mul _
            rw [hone]
            exact .term (.unit (segment.length + 1)) (by omega) (hgroup _ le_rfl)
          · exact hvalue ▸ base10_pos hdpos _
        · refine ⟨[digitOf c] ++ [10 ^ (segment.length + 1)] ++ numbers, ?_, fun k hk => ?_, .inr ?_⟩
          · rw [if_pos (.inr hone)]
            exact (hdspells.append hrank).append hspells
          · have hne : digitOf c ≠ 1 := fun h => hone (by
              rw [← digitChar_digitOf hdigit.1, h]
              rfl)
            exact .term (.times hdpos hd fun h => (hne h).elim) (by omega) (hgroup _ le_rfl)
          · exact hvalue ▸ base10_pos hdpos _

theorem writesSegment_kanji {variation : NumberStringVariation}
    (hstyle : variation.style = .numberKanji) (hdigits : variation.digits = kNumKanjiDigits)
    {segment : Text} (hdigit : ∀ c ∈ segment, isAsciiDigit c = true) (hlen : segment.length = 4) :
    WritesSegment variation segment := by
  obtain ⟨numbers, hspells, hgroup, hpos⟩ :=
    segmentLoop_kanji hstyle hdigits hdigit (i := 0) (by omega) true
  exact ⟨numbers, hspells, hgroup 3 (by omega), hpos⟩

theorem segmentLoop_arabic {variation : NumberStringVariation}
    (hstyle : variation.style.isArabicAndKanji = true)
    (hspells : ∀ c, isAsciiDigit c = true →
      Spells (variation.digits.getD (digitOf c) []) [digitOf c])
    {segment : Text} (hdigit : ∀ c ∈ segment, isAsciiDigit c = true) (i : Nat) :
    Spells (segmentLoop variation kNumKanjiRanks i false segment) (segment.map digitOf) := by
  induction segment generalizing i with
  | nil => exact spells_nil
  | cons c segment ih =>
    rw [List.forall_mem_cons] at hdigit
    have hloop : segmentLoop variation kNumKanjiRanks i false (c :: segment) =
        variation.digits.getD (digitOf c) [] ++
          segmentLoop variation kNumKanjiRanks (i + 1) false segment := by
      simp [segmentLoop, hstyle]
    rw [hloop, List.map_cons, ← List.singleton_append]
    exact (hspells c hdigit.1).append (ih hdigit.2 (i + 1))

theorem segmentLoop_arabic_leading {variation : NumberStringVariation}
    (hstyle : variation.style.isArabicAndKanji = true)
    (hspells : ∀ c, isAsciiDigit c = true →
      Spells (variation.digits.getD (digitOf c) []) [digitOf c])
    {segment : Text} (hdigit : ∀ c ∈ segment, isAsciiDigit c = true) (i : Nat) :
    Spells (segmentLoop variation kNumKanjiRanks i true segment)
      ((segment.map digitOf).dropWhile (· == 0)) := by
  induction segment generalizing i with
  | nil => exact spells_nil
  | cons c segment ih =>
    have hc := (List.forall_mem_cons.mp hdigit).1
    by_cases hzero : c = '0'
    · subst hzero
      have hloop : segmentLoop variation kNumKanjiRanks i true ('0' :: segment) =
          segmentLoop variation kNumKanjiRanks (i + 1) true segment := by
        simp [segmentLoop]
      rw [hloop]
      exact ih (List.forall_mem_cons.mp hdigit).2 (i + 1)
    · have hpos := digitOf_pos hc hzero
      have hloop : segmentLoop variation kNumKanjiRanks i true (c :: segment) =
          segmentLoop variation kNumKanjiRanks i false (c :: segment) := by
        simp [segmentLoop, hzero]
      rw [hloop, List.map_cons, List.dropWhile_cons_of_neg (by simp; omega), ← List.map_cons]
      exact segmentLoop_arabic hstyle hspells hdigit i

theorem group_of_digits {ds : List Nat} (hds : ∀ d ∈ ds, d < 10) (hlen : ds.length ≤ 4)
    (hhead : ds.head? ≠ some 0) : Group 3 ds (base10 ds) := by
  match ds, hds, hlen, hhead with
  | [], _, _, _ => exact .nil
  | [d], hds, _, hhead =>
    have hvalue : base10 [d] = d := by simp [base10_cons]
    rw [hvalue]
    exact .ones (hds d (by simp)) fun h => (hhead (by rw [h]; rfl)).elim
  | d :: e :: ds, hds, hlen, hhead =>
    refine .digits ⟨by simp, hds, hhead⟩ ((base10_lt hds).trans_le ?_)
    exact Nat.pow_le_pow_right (by decide) hlen

theorem writesSegment_arabic {variation : NumberStringVariation}
    (hstyle : variation.style.isArabicAndKanji = true)
    (hspells : ∀ c, isAsciiDigit c = true →
      Spells (variation.digits.getD (digitOf c) []) [digitOf c])
    {segment : Text} (hdigit : ∀ c ∈ segment, isAsciiDigit c = true) (hlen : segment.length = 4) :
    WritesSegment variation segment := by
  refine ⟨_, segmentLoop_arabic_leading hstyle hspells hdigit 0, ?_, ?_⟩
  · rw [← base10_dropWhile]
    apply group_of_digits
    · intro d hd
      obtain ⟨c, hc, rfl⟩ := List.mem_map.mp ((List.dropWhile_sublist _).mem hd)
      exact digitOf_lt (hdigit c hc)
    · have := (List.dropWhile_sublist (fun d => d == 0) (l := segment.map digitOf)).length_le
      rw [List.length_map] at this
      omega
    · intro h
      have hnot := List.head?_dropWhile_not (· == 0) (segment.map digitOf)
      rw [h] at hnot
      exact absurd hnot (by decide)
  · rw [← base10_dropWhile]
    cases hdrop : (segment.map digitOf).dropWhile (· == 0) with
    | nil => exact .inl rfl
    | cons d ds =>
      have hnot := List.head?_dropWhile_not (· == 0) (segment.map digitOf)
      rw [hdrop] at hnot
      exact .inr (base10_pos (Nat.pos_of_ne_zero (by simpa using hnot)) ds)

/-! The segments with their big ranks. -/

def rankValue (segments : List Text) : (n : Nat) → Nat
  | 0 => 0
  | n + 1 =>
    base10 ((segments.getD n []).map digitOf) * 10 ^ (4 * n) + rankValue segments n

theorem rankValue_cons (segment : Text) (segments : List Text) (n : Nat) :
    rankValue (segment :: segments) (n + 1) =
      rankValue segments n * 10 ^ 4 + base10 (segment.map digitOf) := by
  induction n with
  | zero => simp [rankValue]
  | succ n ih =>
    rw [rankValue, ih, rankValue, List.getD_cons_succ, Nat.mul_add, pow_add]
    ring

theorem rankedNumbers_length (n : Nat) (input : Text) : (rankedNumbers n input).length = n := by
  induction n generalizing input with
  | zero => rfl
  | succ n ih => rw [rankedNumbers, List.length_cons, ih]

theorem rankedNumbers_segment {n : Nat} {input : Text} (hlen : input.length = 4 * n)
    (hdigit : ∀ c ∈ input, isAsciiDigit c = true) :
    ∀ segment ∈ rankedNumbers n input,
      (∀ c ∈ segment, isAsciiDigit c = true) ∧ segment.length = 4 := by
  induction n generalizing input with
  | zero => intro segment h; cases h
  | succ n ih =>
    rw [rankedNumbers, List.forall_mem_cons]
    refine ⟨⟨fun c hc => hdigit c (List.mem_of_mem_drop hc), ?_⟩,
      ih ?_ fun c hc => hdigit c (List.mem_of_mem_take hc)⟩
    · rw [List.length_drop, kDigitsInBigRank]
      omega
    · rw [List.length_take, kDigitsInBigRank]
      omega

theorem rankedNumbers_value {n : Nat} {input : Text} (hlen : input.length = 4 * n) :
    rankValue (rankedNumbers n input) n = base10 (input.map digitOf) := by
  induction n generalizing input with
  | zero =>
    rw [List.eq_nil_of_length_eq_zero hlen]
    rfl
  | succ n ih =>
    have htake : (input.take (input.length - kDigitsInBigRank)).length = 4 * n := by
      rw [List.length_take, kDigitsInBigRank]
      omega
    have hdrop : ((input.drop (input.length - kDigitsInBigRank)).map digitOf).length = 4 := by
      rw [List.length_map, List.length_drop, kDigitsInBigRank]
      omega
    rw [rankedNumbers, rankValue_cons, ih htake]
    conv_rhs => rw [← List.take_append_drop (input.length - kDigitsInBigRank) input,
      List.map_append, base10_append, hdrop]

theorem Group.value_nil {k v : Nat} (h : Group k [] v) : v = 0 := by
  generalize hxs : ([] : List Nat) = xs at h
  cases h with
  | nil => rfl
  | zero _ | ones _ _ => cases hxs
  | digits hrun _ =>
    have := hrun.length
    simp [← hxs] at this
  | term hterm _ _ => cases hterm <;> simp at hxs

theorem rankLoop_reads {variation : NumberStringVariation} {segments : List Text} {n : Nat}
    (hwrites : ∀ segment ∈ segments, WritesSegment variation segment) (hlen : n ≤ segments.length)
    (hn : n ≤ 5) :
    ∃ numbers, Spells (rankLoop variation kNumKanjiRanks kNumKanjiBiggerRanks segments n) numbers ∧
      (numbers = [] ∧ rankValue segments n = 0 ∨
        ∀ lastBase, 10 ^ (4 * (n - 1)) < lastBase →
          Reads lastBase numbers (rankValue segments n)) := by
  induction n with
  | zero => exact ⟨[], spells_nil, .inl ⟨rfl, rfl⟩⟩
  | succ rank ih =>
    obtain ⟨lower, hlower, hrest⟩ := ih (by omega) (by omega)
    have hmem : segments.getD rank [] ∈ segments := by
      rw [List.getD_eq_getElem _ _ (by omega)]
      exact List.getElem_mem _
    obtain ⟨numbers, hspells, hgroup, hpos⟩ := hwrites _ hmem
    rw [rankLoop, rankValue]
    by_cases hnil : numbers = []
    · subst hnil
      have hempty := hspells.nil_iff.mpr rfl
      rw [hgroup.value_nil, Nat.zero_mul, Nat.zero_add]
      refine ⟨lower, ?_, hrest.imp_right fun h lastBase hlt => h lastBase ?_⟩
      · simp only [hempty, List.isEmpty_nil, if_true, List.nil_append]
        exact hlower
      · exact (Nat.pow_le_pow_right (by decide) (by omega)).trans_lt hlt
    · have hpos := hpos.resolve_left hnil
      have hne : (segmentLoop variation kNumKanjiRanks 0 true (segments.getD rank [])).isEmpty =
          false := List.isEmpty_eq_false_iff.mpr (mt hspells.nil_iff.mp hnil)
      simp only [hne, if_neg Bool.false_ne_true]
      cases rank with
      | zero =>
        refine ⟨numbers ++ [] ++ [], (hspells.append spells_nil).append spells_nil,
          .inr fun lastBase _ => ?_⟩
        rw [List.append_nil, List.append_nil, rankValue, Nat.mul_zero, pow_zero, Nat.mul_one,
          Nat.add_zero]
        exact .last hgroup hpos
      | succ rank =>
        have hbig : 10000 ≤ 10 ^ (4 * (rank + 1)) :=
          Nat.pow_le_pow_right (show 0 < 10 by decide) (show 4 ≤ 4 * (rank + 1) by omega)
        have hfall : 10 ^ (4 * (rank + 1 - 1)) < 10 ^ (4 * (rank + 1)) :=
          Nat.pow_lt_pow_right (by decide) (by omega)
        refine ⟨numbers ++ [10 ^ (4 * (rank + 1))] ++ lower,
          (hspells.append (spells_biggerRank (by omega))).append hlower,
          .inr fun lastBase hlt => ?_⟩
        rcases hrest with ⟨rfl, hzero⟩ | hreads
        · rw [hzero, Nat.add_zero, List.append_nil]
          exact .unit hgroup hpos hbig hlt
        · rw [List.append_assoc, List.singleton_append]
          exact .more hgroup hpos hbig hlt (hreads _ hfall)

/-! The texts of `ArabicToKanji`. -/

theorem Group.base10_eq {k v : Nat} {xs : List Nat} (h : Group k xs v) (hlt : ∀ n ∈ xs, n < 10) :
    base10 xs = v := by
  induction h with
  | nil => rfl
  | zero _ ih =>
    rw [List.forall_mem_cons] at hlt
    rw [base10_zero_cons]
    exact ih hlt.2
  | ones => simp [base10_cons]
  | digits => rfl
  | @term j k n v t xs hterm hle _ _ =>
    have hten := ten_le_pow j
    cases hterm with
    | unit => exact absurd (hlt (10 ^ (j + 1)) (by simp)) (by omega)
    | times => exact absurd (hlt (10 ^ (j + 1)) (by simp)) (by omega)
    | twenty => exact absurd (hlt 20 (by simp)) (by omega)

theorem Reads.base10_eq {lastBase v : Nat} {xs : List Nat} (h : Reads lastBase xs v)
    (hlt : ∀ n ∈ xs, n < 10) : base10 xs = v := by
  cases h with
  | last h _ => exact h.base10_eq hlt
  | @unit _ base _ _ _ _ hbig _ => exact absurd (hlt base (by simp)) (by omega)
  | @more _ base _ _ _ _ _ _ hbig _ _ => exact absurd (hlt base (by simp)) (by omega)

theorem Reads.normalizeNumbers_eq {text : Text} {numbers : List Nat} {v : Nat}
    (h : Reads (2 ^ 64 - 1) numbers v) (hspells : Spells text numbers) (hlt : v < 2 ^ 64) :
    normalizeNumbers text true = some (text.flatMap kanjiText, Nat.toDigits 10 v) := by
  have harabic : arabicText true numbers v = Nat.toDigits 10 v := rfl
  by_cases hunit : ∃ n ∈ numbers, 10 ≤ n
  · rw [NumberUtil.normalizeNumbers_eq hspells hunit,
      h.interpretLoop_eq (Nat.lt_succ_self _) (by decide), Nat.zero_add, if_pos hlt, ← harabic]
    rfl
  · have hdigit : ∀ n ∈ numbers, n < 10 := fun n hn =>
      Nat.lt_of_not_le fun hten => hunit ⟨n, hn, hten⟩
    have hne : numbers.isEmpty = false := List.isEmpty_eq_false_iff.mpr h.ne_nil
    obtain ⟨max, hmax⟩ : ∃ max, numbers.max? = some max := by
      rw [← Option.isSome_iff_exists, ← Option.ne_none_iff_isSome, Ne, List.max?_eq_none_iff]
      exact h.ne_nil
    have hmem := (List.max?_eq_some_iff.mp hmax).1
    have hend : ∀ n ∈ ([] : List Nat).head?, 10 ≤ n := by simp
    have hread := reduceLeading_eq hdigit hend (show 0 < 2 ^ 64 by decide)
    rw [← base10, h.base10_eq hdigit, if_pos hlt, List.append_nil] at hread
    have hhelper : normalizeNumbersHelper numbers = some v := by
      rw [normalizeNumbersHelper, hmax, Option.bind_eq_bind, Option.bind_some,
        if_pos (hdigit max hmem), interpretNumbersAsBase10System, hread]
    unfold Spells at hspells
    rw [normalizeNumbers, hspells, Option.bind_eq_bind, Option.bind_some, hne,
      if_neg Bool.false_ne_true, hhelper, Option.bind_eq_bind, Option.bind_some, harabic]

theorem fill_length (input : Text) :
    (List.replicate ((kDigitsInBigRank - input.length % kDigitsInBigRank) % kDigitsInBigRank) '0' ++
      input).length = 4 * ((List.replicate
        ((kDigitsInBigRank - input.length % kDigitsInBigRank) % kDigitsInBigRank) '0' ++
          input).length / kDigitsInBigRank) := by
  rw [List.length_append, List.length_replicate, kDigitsInBigRank]
  omega

theorem base10_fill (k : Nat) (input : Text) :
    base10 ((List.replicate k '0' ++ input).map digitOf) = base10 (input.map digitOf) := by
  induction k with
  | zero => rfl
  | succ k ih =>
    rw [← ih]
    exact base10_zero_cons _

theorem writesSegment {variation : NumberStringVariation} (hmem : variation ∈ kKanjiVariations)
    (hstyle : variation.style ≠ .numberOldKanji) {segment : Text}
    (hdigit : ∀ c ∈ segment, isAsciiDigit c = true) (hlen : segment.length = 4) :
    WritesSegment variation segment := by
  simp only [kKanjiVariations, List.mem_cons, List.not_mem_nil, or_false] at hmem
  rcases hmem with rfl | rfl | rfl | rfl
  · exact writesSegment_arabic rfl (fun _ => spells_halfWidthDigit) hdigit hlen
  · exact writesSegment_arabic rfl (fun _ => spells_fullWidthDigit) hdigit hlen
  · exact writesSegment_kanji rfl rfl hdigit hlen
  · exact (hstyle rfl).elim

theorem variationStrings_value {input : Text} {ranked : List Text}
    {variation : NumberStringVariation} {string : NumberString}
    (hmem : string ∈ variationStrings input ranked variation)
    (hstyle : string.style ≠ .numberOldKanji) :
    variation.style ≠ .numberOldKanji ∧
      string.value =
        rankLoop variation kNumKanjiRanks kNumKanjiBiggerRanks ranked ranked.length := by
  rw [variationStrings] at hmem
  split at hmem
  · cases hmem
  · by_cases hold : variation.style = .numberOldKanji
    · simp only [hold, beq_self_eq_true, if_true, Bool.not_true, Bool.false_eq_true, if_false,
        List.mem_cons, List.mem_append] at hmem
      rcases hmem with rfl | (hmem | hmem) | hmem
      · exact (hstyle rfl).elim
      all_goals
        split at hmem
        all_goals simp only [List.mem_singleton, List.not_mem_nil] at hmem
        exact (hstyle (by rw [hmem])).elim
    · have hbeq : (variation.style == .numberOldKanji) = false := beq_eq_false_iff_ne.mpr hold
      simp only [hbeq, Bool.false_eq_true, if_false, Bool.not_false, if_true,
        List.mem_singleton] at hmem
      exact ⟨hold, by rw [hmem]⟩

/-- Every text in kanji or in arabic and kanji is read back as the number, without the zeros in front
of it. -/
theorem normalizeNumbers_arabicToKanji {input : Text} {strings : List NumberString}
    {string : NumberString} (h : arabicToKanji input = some strings) (hmem : string ∈ strings)
    (hstyle : string.style ≠ .numberOldKanji) (hpos : 0 < base10 (input.map digitOf))
    (hlt : base10 (input.map digitOf) < 2 ^ 64) :
    normalizeNumbers string.value true =
      some (string.value.flatMap kanjiText, input.dropWhile (· == '0')) := by
  rw [arabicToKanji] at h
  split at h
  · cases h
  · rename_i hdecimal
    rw [Bool.not_eq_true', Bool.not_eq_false, isDecimalInteger, Bool.and_eq_true] at hdecimal
    have hdigit : ∀ c ∈ input, isAsciiDigit c = true := List.all_eq_true.mp hdecimal.2
    split at h
    · cases h
      rw [List.mem_singleton] at hmem
      exact (hstyle (by rw [hmem])).elim
    · split at h
      · cases h
      · rename_i hlimit
        have hlimit : input.length ≤ 20 := Nat.le_of_not_lt hlimit
        have hfill := fill_length input
        have hvalue := base10_fill
          ((kDigitsInBigRank - input.length % kDigitsInBigRank) % kDigitsInBigRank) input
        have hn : (List.replicate
            ((kDigitsInBigRank - input.length % kDigitsInBigRank) % kDigitsInBigRank) '0' ++
              input).length / kDigitsInBigRank ≤ 5 := by
          rw [List.length_append, List.length_replicate, kDigitsInBigRank]
          omega
        have hdigits : ∀ c ∈ List.replicate
            ((kDigitsInBigRank - input.length % kDigitsInBigRank) % kDigitsInBigRank) '0' ++ input,
            isAsciiDigit c = true := by
          intro c hc
          rcases List.mem_append.mp hc with hc | hc
          · rw [(List.mem_replicate.mp hc).2]
            decide
          · exact hdigit c hc
        cases h
        generalize List.replicate _ '0' ++ input = filled at hmem hfill hvalue hn hdigits
        generalize filled.length / kDigitsInBigRank = n at hmem hfill hn
        obtain ⟨variation, hvariation, hmem⟩ := List.mem_flatMap.mp hmem
        have hold := variationStrings_value hmem hstyle
        rw [rankedNumbers_length] at hold
        have hwrites : ∀ segment ∈ rankedNumbers n filled, WritesSegment variation segment := by
          intro segment hsegment
          have hsegment := rankedNumbers_segment hfill hdigits segment hsegment
          exact writesSegment hvariation hold.1 hsegment.1 hsegment.2
        obtain ⟨numbers, hspells, hreads⟩ :=
          rankLoop_reads hwrites (rankedNumbers_length n filled).ge hn
        rw [rankedNumbers_value hfill, hvalue] at hreads
        rcases hreads with ⟨-, hzero⟩ | hreads
        · omega
        · have hbound : 10 ^ (4 * (n - 1)) < 2 ^ 64 - 1 :=
            (Nat.pow_le_pow_right (by decide) (show 4 * (n - 1) ≤ 16 by omega)).trans_lt (by decide)
          rw [hold.2, (hreads _ hbound).normalizeNumbers_eq hspells hlt,
            toDigits_trim hdigit hpos]

theorem normalizeNumbers_arabicToKanji_twenty_thousand :
    arabicToKanji ['0', '2', '0', '3', '0', '0'] = some
      [⟨['2', '万', '3', '0', '0'], "数字", .numberArabicAndKanjiHalfwidth⟩,
        ⟨['２', '万', '３', '０', '０'], "数字", .numberArabicAndKanjiFullwidth⟩,
        ⟨['二', '万', '三', '百'], "漢数字", .numberKanji⟩,
        ⟨['弐', '萬', '参', '百'], "大字", .numberOldKanji⟩] ∧
    normalizeNumbers ['二', '万', '三', '百'] true =
      some (['二', '万', '三', '百'], ['2', '0', '3', '0', '0']) := by
  have h : arabicToKanji ['0', '2', '0', '3', '0', '0'] = some
      [⟨['2', '万', '3', '0', '0'], "数字", .numberArabicAndKanjiHalfwidth⟩,
        ⟨['２', '万', '３', '０', '０'], "数字", .numberArabicAndKanjiFullwidth⟩,
        ⟨['二', '万', '三', '百'], "漢数字", .numberKanji⟩,
        ⟨['弐', '萬', '参', '百'], "大字", .numberOldKanji⟩] := by decide
  have hmem := List.mem_cons_of_mem (⟨['2', '万', '3', '0', '0'], "数字",
    .numberArabicAndKanjiHalfwidth⟩ : NumberString) (List.mem_cons_of_mem ⟨['２', '万', '３', '０', '０'],
      "数字", .numberArabicAndKanjiFullwidth⟩ (List.mem_cons_self
        (a := (⟨['二', '万', '三', '百'], "漢数字", .numberKanji⟩ : NumberString))
        (l := [⟨['弐', '萬', '参', '百'], "大字", .numberOldKanji⟩])))
  exact ⟨h, normalizeNumbers_arabicToKanji h hmem (by decide) (by decide) (by decide)⟩

end Mozkey.Base.NumberUtil
