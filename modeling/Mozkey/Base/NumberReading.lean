import Mozkey.Base.NumberUtil

/-! What `NormalizeNumbers` reads: the grammar of the sequences with a unit, and how a sequence is read
that is cut off behind a unit. -/

namespace Mozkey.Base.NumberUtil

/-! The overflow checks. -/

theorem multiplyAndCheckOverflow_eq (a b : Nat) :
    multiplyAndCheckOverflow a b = if a * b < 2 ^ 64 then some (a * b) else none := by
  have hiff : (a ≠ 0 ∧ b > (2 ^ 64 - 1) / a) ↔ ¬ a * b < 2 ^ 64 := by
    rcases Nat.eq_zero_or_pos a with rfl | hpos
    · simp
    · rw [gt_iff_lt, Nat.div_lt_iff_lt_mul hpos, Nat.mul_comm b]
      omega
  rw [multiplyAndCheckOverflow, if_congr hiff rfl rfl, ite_not]

theorem addAndCheckOverflow_eq {a b : Nat} (h : a < 2 ^ 64) :
    addAndCheckOverflow a b = if a + b < 2 ^ 64 then some (a + b) else none := by
  have hiff : b > 2 ^ 64 - 1 - a ↔ ¬ a + b < 2 ^ 64 := by omega
  rw [addAndCheckOverflow, if_congr hiff rfl rfl, ite_not]

def base10From (n : Nat) (ds : List Nat) : Nat := ds.foldl (fun n d => n * 10 + d) n

def base10 (ds : List Nat) : Nat := base10From 0 ds

theorem le_base10From (n : Nat) (ds : List Nat) : n ≤ base10From n ds := by
  induction ds generalizing n with
  | nil => exact le_rfl
  | cons d ds ih => exact (show n ≤ n * 10 + d by omega).trans (ih _)

theorem reduceLeading_eq {ds rest : List Nat} (hds : ∀ d ∈ ds, d < 10)
    (hrest : ∀ n ∈ rest.head?, 10 ≤ n) {n : Nat} (hn : n < 2 ^ 64) :
    reduceLeadingNumbersAsBase10System n (ds ++ rest) =
      if base10From n ds < 2 ^ 64 then some (base10From n ds, rest) else none := by
  induction ds generalizing n with
  | nil =>
    have hbase : base10From n [] = n := rfl
    rw [List.nil_append, hbase, if_pos hn]
    cases rest with
    | nil => rfl
    | cons m rest => exact if_pos (hrest m rfl)
  | cons d ds ih =>
    rw [List.forall_mem_cons] at hds
    have hbase : base10From n (d :: ds) = base10From (n * 10 + d) ds := rfl
    have hle := le_base10From (n * 10 + d) ds
    rw [List.cons_append, reduceLeadingNumbersAsBase10System, if_neg (by omega),
      multiplyAndCheckOverflow_eq, hbase]
    by_cases hmul : n * 10 < 2 ^ 64
    · rw [if_pos hmul, Option.bind_eq_bind, Option.bind_some, addAndCheckOverflow_eq hmul]
      by_cases hadd : n * 10 + d < 2 ^ 64
      · rw [if_pos hadd, Option.bind_some, ih hds.2 hadd]
      · rw [if_neg hadd, if_neg (by omega)]
        rfl
    · rw [if_neg hmul, if_neg (by omega)]
      rfl

/-! The grammar of a group, and the sequences whose reading is cut off. -/

/-- The numerals of a unit `10 ^ j`: the unit itself, a digit before it, or the kanji for twenty. -/
inductive Term : Nat → List Nat → Nat → Prop
  | unit (j : Nat) : Term j [10 ^ j] (10 ^ j)
  | times {j d : Nat} (hpos : 1 ≤ d) (hlt : d < 10) (hone : d = 1 → j = 3) :
    Term j [d, 10 ^ j] (d * 10 ^ j)
  | twenty : Term 1 [20] 20

structure Run (ds : List Nat) : Prop where
  length : 2 ≤ ds.length
  digit : ∀ d ∈ ds, d < 10
  head : ds.head? ≠ some 0

/-- A group below `10 ^ (k + 1)` and its value: terms of falling units with zeros between them, and at
its end a digit, or plain digits below the last unit. -/
inductive Group : Nat → List Nat → Nat → Prop
  | nil {k : Nat} : Group k [] 0
  | zero {k v : Nat} {xs : List Nat} (h : Group (k + 1) xs v) : Group (k + 1) (0 :: xs) v
  | ones {k d : Nat} (hlt : d < 10) (hzero : d = 0 → k = 0) : Group k [d] d
  | digits {k : Nat} {ds : List Nat} (hrun : Run ds) (hlt : base10 ds < 10 ^ (k + 2)) :
    Group (k + 1) ds (base10 ds)
  | term {j k n v : Nat} {t xs : List Nat} (hterm : Term (j + 1) t n) (hle : j + 1 ≤ k)
    (h : Group j xs v) : Group k (t ++ xs) (n + v)

/-- Digits that have no place below `10 ^ (k + 1)`: too many, or with a smaller unit behind them. -/
def Misfit (k : Nat) (xs : List Nat) : Prop :=
  ∃ ds rest, xs = ds ++ rest ∧ Run ds ∧ (∀ n ∈ rest.head?, 10 ≤ n) ∧
    (10 ^ (k + 1) ≤ base10 ds ∨ ∃ n ∈ rest.head?, n < 10000)

/-- A beginning of a group with digits behind it that have no place there, and the value of the
beginning. -/
inductive Cut : Nat → List Nat → Nat → Prop
  | misfit {k : Nat} {xs : List Nat} (h : Misfit (k + 1) xs) : Cut (k + 1) xs 0
  | zero {k v : Nat} {xs : List Nat} (h : Cut (k + 1) xs v) : Cut (k + 1) (0 :: xs) v
  | term {j k n v : Nat} {t xs : List Nat} (hterm : Term (j + 1) t n) (hle : j + 1 ≤ k)
    (h : Cut j xs v) : Cut k (t ++ xs) (n + v)

/-- Where a group ends: at the end of the sequence or before a big unit. -/
def Ends (rest : List Nat) : Prop := ∀ n ∈ rest.head?, 10000 ≤ n

instance (rest : List Nat) : Decidable (Ends rest) :=
  inferInstanceAs (Decidable (∀ n ∈ rest.head?, 10000 ≤ n))

theorem ends_nil : Ends [] := fun _ h => by cases h

theorem any_head_iff (rest : List Nat) : rest.head?.any (· < 10000) = true ↔ ¬ Ends rest := by
  cases rest with
  | nil => simp [Ends]
  | cons n rest => simp [Ends]

theorem all_head_iff (rest : List Nat) : rest.head?.all (· ≥ 10000) = true ↔ Ends rest := by
  cases rest with
  | nil => simp [Ends]
  | cons n rest => simp [Ends]

/-! The stages of `ReduceNumberLessThan10000`. -/

/-- The stages with the units up to `10 ^ k`, and the one with the ones digit. -/
def reduceFrom : Nat → List Nat → Option Nat × List Nat
  | 0, xs => reduceOnesDigit xs
  | k + 1, xs =>
    let stage := reduceDigitsHelper (10 ^ (k + 1)) xs
    let lower := reduceFrom k stage.2
    (stage.1.elim lower.1 fun n => some (n + lower.1.getD 0), lower.2)

theorem reduceStage_eq (reduce : List Nat → Option Nat × List Nat) (num : Nat) (success : Bool)
    (begin : List Nat) : reduceStage reduce (num, success, begin) =
      (num + (reduce begin).1.getD 0, success || (reduce begin).1.isSome, (reduce begin).2) := by
  rw [reduceStage]
  rcases reduce begin with ⟨_ | n, rest⟩ <;> simp

theorem reduceNumberLessThan10000_eq (xs : List Nat) :
    reduceNumberLessThan10000 xs =
      (if (reduceFrom 3 xs).2.head?.all (· ≥ 10000) then (reduceFrom 3 xs).1 else none,
        (reduceFrom 3 xs).2) := by
  simp only [reduceFrom, reduceNumberLessThan10000, reduceStage_eq, Nat.reduceAdd, Nat.reducePow]
  have hcases : ∀ o : Option Nat, o = none ∨ ∃ n, o = some n := by
    intro o
    cases o <;> simp
  rcases hcases (reduceDigitsHelper 1000 xs).1 with h₃ | ⟨n₃, h₃⟩ <;>
    rcases hcases (reduceDigitsHelper 100 (reduceDigitsHelper 1000 xs).2).1 with h₂ | ⟨n₂, h₂⟩ <;>
    rcases hcases (reduceDigitsHelper 10 (reduceDigitsHelper 100
      (reduceDigitsHelper 1000 xs).2).2).1 with h₁ | ⟨n₁, h₁⟩ <;>
    rcases hcases (reduceOnesDigit (reduceDigitsHelper 10 (reduceDigitsHelper 100
      (reduceDigitsHelper 1000 xs).2).2).2).1 with h₀ | ⟨n₀, h₀⟩ <;>
    simp [h₃, h₂, h₁, h₀, Nat.add_assoc]

theorem ten_le_pow (j : Nat) : 10 ≤ 10 ^ (j + 1) := Nat.le_self_pow (Nat.succ_ne_zero j) 10

theorem pow_le_thousand {j : Nat} (h : j ≤ 2) : 10 ^ (j + 1) ≤ 1000 :=
  Nat.pow_le_pow_right (by omega) (show j + 1 ≤ 3 by omega)

theorem pow_ne_twenty (j : Nat) : 10 ^ j ≠ 20 := by
  match j with
  | 0 | 1 => decide
  | j + 2 =>
    have : 10 ^ (j + 2) = 10 ^ j * 100 := pow_add 10 j 2
    omega

theorem reduceDigits_term {j n : Nat} {t : List Nat} (hterm : Term (j + 1) t n) (xs : List Nat) :
    reduceDigits (10 ^ (j + 1)) (t ++ xs) = (some n, xs) := by
  have hten := ten_le_pow j
  cases hterm with
  | unit => simp [reduceDigits, Nat.not_lt.mpr hten]
  | @times _ d hpos hlt hone =>
    have hallowed : ¬ (10 ^ (j + 1) ≠ 10 ^ (j + 1) ∨ d = 1 ∧ 10 ^ (j + 1) ≠ 1000) := by
      rintro (h | ⟨hd, h⟩)
      · exact h rfl
      · exact h (by rw [hone hd]; norm_num)
    simp only [List.cons_append, List.nil_append, reduceDigits, if_pos hlt,
      if_neg (Nat.not_lt.mpr hten), if_neg hallowed]
  | twenty => rfl

theorem reduceDigits_term_of_lt {i j n : Nat} {t : List Nat} (hterm : Term (i + 1) t n)
    (hlt : i < j) (xs : List Nat) :
    reduceDigits (10 ^ (j + 1)) (t ++ xs) = (none, t ++ xs) := by
  have hten := ten_le_pow i
  have hne : 10 ^ (i + 1) ≠ 10 ^ (j + 1) :=
    (Nat.pow_lt_pow_right (by omega) (Nat.succ_lt_succ hlt)).ne
  have hten' : 10 ^ (j + 1) ≠ 10 := by
    have := Nat.pow_lt_pow_right (show 1 < 10 by omega) (show 1 < j + 1 by omega)
    omega
  cases hterm with
  | unit => simp [reduceDigits, Nat.not_lt.mpr hten, hne, hten']
  | times hpos hd hone => simp [reduceDigits, hd, Nat.not_lt.mpr hten, hne]
  | twenty =>
    have hne' := (pow_ne_twenty (j + 1)).symm
    simp [reduceDigits, hne', hten']

theorem reduceDigits_run {j : Nat} (hj : j ≤ 2) {ds rest : List Nat} (hrun : Run ds)
    (hrest : ∀ n ∈ rest.head?, 10 ≤ n) :
    reduceDigits (10 ^ (j + 1)) (ds ++ rest) =
      if base10 ds < 10 ^ (j + 2) ∧ Ends rest then (some (base10 ds), rest) else (none, []) := by
  obtain ⟨d, n, ds, rfl⟩ : ∃ d n ds', ds = d :: n :: ds' := by
    match ds, hrun.length with
    | d :: n :: ds', _ => exact ⟨d, n, ds', rfl⟩
  have hd := hrun.digit d (by simp)
  have hn := hrun.digit n (by simp)
  have hread := reduceLeading_eq (n := 0) hrun.digit hrest (by omega)
  have hpow : 10 ^ (j + 2) = 10 ^ (j + 1) * 10 := pow_succ 10 (j + 1)
  have hthousand := pow_le_thousand hj
  rw [← base10] at hread
  simp only [List.cons_append, reduceDigits, if_pos hd, if_pos hn] at hread ⊢
  rw [hread]
  by_cases hsize : base10 (d :: n :: ds) < 2 ^ 64
  · rw [if_pos hsize]
    have hiff : base10 (d :: n :: ds) ≥ 10 ^ (j + 1) * 10 ∨ rest.head?.any (· < 10000) = true ↔
        ¬ (base10 (d :: n :: ds) < 10 ^ (j + 2) ∧ Ends rest) := by
      rw [any_head_iff, hpow, not_and_or, Nat.not_lt]
    dsimp only
    rw [if_congr hiff rfl rfl, ite_not]
  · rw [if_neg hsize, if_neg (by omega)]

theorem Run.of_append {ds rest xs : List Nat} {d : Nat} (h : Run ds) (heq : d :: xs = ds ++ rest) :
    d < 10 ∧ ∃ n xs', xs = n :: xs' ∧ n < 10 := by
  match ds, h.length with
  | d' :: n :: ds, _ =>
    rw [List.cons_append, List.cons_append, List.cons.injEq] at heq
    obtain ⟨rfl, rfl⟩ := heq
    exact ⟨h.digit d (by simp), n, ds ++ rest, rfl, h.digit n (by simp)⟩

theorem reduceDigits_cases {j : Nat} {xs : List Nat} (hhead : xs.head? ≠ some 0) :
    (∃ t n rest, Term (j + 1) t n ∧ xs = t ++ rest) ∨
    (∃ ds rest, Run ds ∧ (∀ n ∈ rest.head?, 10 ≤ n) ∧ xs = ds ++ rest) ∨
    (reduceDigits (10 ^ (j + 1)) xs = (none, xs) ∧ ∀ k, ¬ Misfit k xs) := by
  cases xs with
  | nil =>
    refine .inr (.inr ⟨rfl, ?_⟩)
    rintro k ⟨ds, rest, heq, hrun, -⟩
    have := hrun.length
    rw [(List.append_eq_nil_iff.mp heq.symm).1] at this
    simp at this
  | cons d xs =>
    have hmisfit : ¬ (d < 10 ∧ ∃ n xs', xs = n :: xs' ∧ n < 10) → ∀ k, ¬ Misfit k (d :: xs) := by
      rintro hno k ⟨ds, rest, heq, hrun, -⟩
      exact hno (hrun.of_append heq)
    by_cases hd : d < 10
    · cases xs with
      | nil =>
        refine .inr (.inr ⟨by simp [reduceDigits, hd], hmisfit ?_⟩)
        rintro ⟨-, n, xs', h, -⟩
        cases h
      | cons n xs =>
        by_cases hn : n < 10
        · refine .inr (.inl ⟨(d :: n :: xs).takeWhile (· < 10), (d :: n :: xs).dropWhile (· < 10),
            ⟨?_, ?_, ?_⟩, ?_, List.takeWhile_append_dropWhile.symm⟩)
          · simp [hd, hn]
          · intro m hm
            simpa using List.mem_takeWhile_imp hm
          · simpa [hd] using hhead
          · intro m hm
            have hm' := List.head?_dropWhile_not (· < 10) (d :: n :: xs)
            rw [Option.mem_def.mp hm] at hm'
            simpa using hm'
        · by_cases hunit : n = 10 ^ (j + 1) ∧ (d = 1 → j + 1 = 3)
          · have hpos : 1 ≤ d := Nat.pos_of_ne_zero fun h => hhead (by rw [h]; rfl)
            exact .inl ⟨[d, 10 ^ (j + 1)], _, xs, .times hpos hd hunit.2, by rw [hunit.1]; rfl⟩
          · refine .inr (.inr ⟨?_, hmisfit ?_⟩)
            · simp only [reduceDigits, if_pos hd, if_neg hn]
              refine if_pos ?_
              by_contra hno
              rw [not_or, not_and, not_not] at hno
              refine hunit ⟨hno.1, fun hone => ?_⟩
              exact Nat.pow_right_injective (le_refl 2 |>.trans (by decide)) (not_not.mp (hno.2 hone))
            · rintro ⟨-, m, xs', h, hm⟩
              cases h
              exact hn hm
    · by_cases hunit : d = 10 ^ (j + 1)
      · exact .inl ⟨[10 ^ (j + 1)], _, xs, .unit (j + 1), by rw [hunit]; rfl⟩
      · by_cases htwenty : 10 ^ (j + 1) = 10 ∧ d = 20
        · obtain ⟨hj, rfl⟩ := htwenty
          obtain rfl : j = 0 := by
            have := Nat.pow_right_injective (show 2 ≤ 10 by decide) (hj.trans (pow_one 10).symm)
            omega
          exact .inl ⟨[20], 20, xs, .twenty, rfl⟩
        · refine .inr (.inr ⟨?_, hmisfit fun h => hd h.1⟩)
          simp only [reduceDigits, if_neg hd]
          exact if_neg (not_or.mpr ⟨hunit, htwenty⟩)

/-! All stages. -/

theorem reduceDigitsHelper_eq {base : Nat} {xs : List Nat} (hhead : xs.head? ≠ some 0) :
    reduceDigitsHelper base xs = reduceDigits base xs := by
  rw [reduceDigitsHelper]
  cases xs with
  | nil => rfl
  | cons n xs => rw [List.dropWhile_cons_of_neg (by simpa using hhead)]

theorem reduceFrom_succ {k : Nat} {xs : List Nat} (hhead : xs.head? ≠ some 0) {s : Option Nat}
    {ys : List Nat} (hstage : reduceDigits (10 ^ (k + 1)) xs = (s, ys)) :
    reduceFrom (k + 1) xs =
      (s.elim (reduceFrom k ys).1 fun n => some (n + (reduceFrom k ys).1.getD 0),
        (reduceFrom k ys).2) := by
  rw [reduceFrom, reduceDigitsHelper_eq hhead, hstage]

theorem Ends.head_ne {xs : List Nat} (h : Ends xs) {n : Nat} (hn : n < 10000) :
    xs.head? ≠ some n := fun heq => Nat.not_le.mpr hn (h n heq)

theorem reduceFrom_ends {k : Nat} (hk : k ≤ 3) {xs : List Nat} (h : Ends xs) :
    reduceFrom k xs = (none, xs) := by
  induction k with
  | zero =>
    cases xs with
    | nil => rfl
    | cons n xs =>
      have hn : 10000 ≤ n := h n rfl
      exact if_pos (by omega)
  | succ k ih =>
    have hstage : reduceDigits (10 ^ (k + 1)) xs = (none, xs) := by
      have hthousand := pow_le_thousand (show k ≤ 2 by omega)
      cases xs with
      | nil => rfl
      | cons n xs =>
        have hn : 10000 ≤ n := h n rfl
        simp only [reduceDigits, if_neg (show ¬ n < 10 by omega)]
        exact if_neg (by omega)
    rw [reduceFrom_succ (h.head_ne (by decide)) hstage, ih (by omega)]
    rfl

theorem Term.head_ne {j n : Nat} {t : List Nat} (h : Term (j + 1) t n) (xs : List Nat) :
    (t ++ xs).head? ≠ some 0 := by
  have hten := ten_le_pow j
  cases h with
  | unit => simp
  | times hpos _ _ =>
    simp
    omega
  | twenty => simp

theorem reduceFrom_term {j k n : Nat} {t : List Nat} (hterm : Term (j + 1) t n) (hle : j + 1 ≤ k)
    (xs : List Nat) :
    reduceFrom k (t ++ xs) =
      (some (n + (reduceFrom j xs).1.getD 0), (reduceFrom j xs).2) := by
  induction k, hle using Nat.le_induction with
  | base => rw [reduceFrom_succ (hterm.head_ne xs) (reduceDigits_term hterm xs)]; rfl
  | succ k hle ih =>
    rw [reduceFrom_succ (hterm.head_ne xs) (reduceDigits_term_of_lt hterm (by omega) xs), ih]
    rfl

theorem Run.head_append {ds : List Nat} (h : Run ds) (rest : List Nat) :
    (ds ++ rest).head? ≠ some 0 := by
  match ds, h.length with
  | d :: n :: ds, _ => exact h.head

theorem reduceFrom_run {k : Nat} (hk : k ≤ 2) {ds rest : List Nat} (hrun : Run ds)
    (hrest : ∀ n ∈ rest.head?, 10 ≤ n) :
    reduceFrom (k + 1) (ds ++ rest) =
      if base10 ds < 10 ^ (k + 2) ∧ Ends rest then (some (base10 ds), rest) else (none, []) := by
  have hstage := reduceDigits_run hk hrun hrest
  split at hstage
  · rename_i hfits
    rw [reduceFrom_succ (hrun.head_append rest) hstage, reduceFrom_ends (by omega) hfits.2,
      if_pos hfits]
    rfl
  · rename_i hmisfit
    rw [reduceFrom_succ (hrun.head_append rest) hstage,
      reduceFrom_ends (by omega) ends_nil, if_neg hmisfit]
    rfl

theorem reduceFrom_ones {k d : Nat} (hk : k ≤ 3) (hlt : d < 10) (hzero : d = 0 → k = 0)
    {rest : List Nat} (hrest : Ends rest) : reduceFrom k (d :: rest) = (some d, rest) := by
  induction k with
  | zero => exact if_neg (by omega)
  | succ k ih =>
    have hpos : d ≠ 0 := fun h => Nat.succ_ne_zero k (hzero h)
    have hstage : reduceDigits (10 ^ (k + 1)) (d :: rest) = (none, d :: rest) := by
      have hthousand := pow_le_thousand (show k ≤ 2 by omega)
      cases rest with
      | nil => simp [reduceDigits, hlt]
      | cons n rest =>
        have hn : 10000 ≤ n := hrest n rfl
        simp only [reduceDigits, if_pos hlt, if_neg (show ¬ n < 10 by omega)]
        exact if_pos (.inl (by omega))
    rw [reduceFrom_succ (by simpa using hpos) hstage, ih (by omega) fun h => (hpos h).elim]
    rfl

theorem Group.reduceFrom_eq {k v : Nat} {g rest : List Nat} (h : Group k g v) (hk : k ≤ 3)
    (hrest : Ends rest) : ∃ r : Option Nat, reduceFrom k (g ++ rest) = (r, rest) ∧ r.getD 0 = v := by
  induction h with
  | nil => exact ⟨none, reduceFrom_ends hk hrest, rfl⟩
  | zero _ ih => exact ih hk
  | ones hlt hzero => exact ⟨_, reduceFrom_ones hk hlt hzero hrest, rfl⟩
  | digits hrun hlt =>
    refine ⟨some _, ?_, rfl⟩
    rw [reduceFrom_run (by omega) hrun fun n hn => le_trans (by decide) (hrest n hn),
      if_pos ⟨hlt, hrest⟩]
    rfl
  | term hterm hle h ih =>
    obtain ⟨r, heq, hr⟩ := ih (by omega)
    rw [List.append_assoc, reduceFrom_term hterm hle, heq, hr]
    exact ⟨_, rfl, rfl⟩

theorem Cut.reduceFrom_eq {k v : Nat} {xs : List Nat} (h : Cut k xs v) (hk : k ≤ 3) :
    ∃ r : Option Nat, reduceFrom k xs = (r, []) ∧ r.getD 0 = v := by
  induction h with
  | misfit h =>
    obtain ⟨ds, rest, rfl, hrun, hrest, hmisfit⟩ := h
    refine ⟨none, ?_, rfl⟩
    rw [reduceFrom_run (by omega) hrun hrest, if_neg]
    rintro ⟨hlt, hends⟩
    rcases hmisfit with hge | ⟨n, hn, hsmall⟩
    · exact Nat.not_le.mpr hlt hge
    · exact Nat.not_le.mpr hsmall (hends n hn)
  | zero _ ih => exact ih hk
  | term hterm hle h ih =>
    obtain ⟨r, heq, hr⟩ := ih (by omega)
    rw [reduceFrom_term hterm hle, heq, hr]
    exact ⟨_, rfl, rfl⟩

theorem Group.mono {k v : Nat} {g : List Nat} (h : Group k g v) : Group (k + 1) g v := by
  induction h with
  | nil => exact .nil
  | zero _ ih => exact ih.zero
  | @ones k d hlt hzero =>
    by_cases hd : d = 0
    · rw [hd]
      exact Group.nil.zero
    · exact .ones hlt fun h => (hd h).elim
  | digits hrun hlt =>
    exact .digits hrun (hlt.trans_le (Nat.pow_le_pow_right (by decide) (Nat.le_succ _)))
  | term hterm hle h _ => exact .term hterm (Nat.le_succ_of_le hle) h

theorem reduceFrom_sound {k : Nat} (hk : k ≤ 3) {xs rest : List Nat} {r : Option Nat}
    (h : reduceFrom k xs = (r, rest)) (hrest : Ends rest) :
    (∃ g, xs = g ++ rest ∧ Group k g (r.getD 0)) ∨ rest = [] ∧ Cut k xs (r.getD 0) := by
  induction k generalizing xs r with
  | zero =>
    cases xs with
    | nil =>
      cases h
      exact .inl ⟨[], rfl, .nil⟩
    | cons d xs =>
      rw [reduceFrom, reduceOnesDigit] at h
      split at h
      · cases h
        exact .inl ⟨[], rfl, .nil⟩
      · cases h
        exact .inl ⟨[d], rfl, .ones (by omega) fun _ => rfl⟩
  | succ k ih =>
    induction xs with
    | nil =>
      rw [reduceFrom_ends hk ends_nil] at h
      cases h
      exact .inl ⟨[], rfl, .nil⟩
    | cons d xs ihxs =>
      by_cases hd : d = 0
      · subst hd
        rcases ihxs h with ⟨g, rfl, hg⟩ | ⟨rfl, hcut⟩
        · exact .inl ⟨0 :: g, rfl, hg.zero⟩
        · exact .inr ⟨rfl, hcut.zero⟩
      · have hhead : (d :: xs).head? ≠ some 0 := by simpa using hd
        rcases reduceDigits_cases (j := k) hhead with ⟨t, n, ys, hterm, heq⟩ |
          ⟨ds, ys, hrun, hys, heq⟩ | ⟨hstage, hmisfit⟩
        · rw [heq, reduceFrom_term hterm le_rfl, Prod.mk.injEq] at h
          obtain ⟨rfl, hlower⟩ := h
          rw [heq]
          rcases ih (by omega) (Prod.ext rfl hlower) with ⟨g, rfl, hg⟩ | ⟨rfl, hcut⟩
          · exact .inl ⟨t ++ g, (List.append_assoc _ _ _).symm, .term hterm le_rfl hg⟩
          · exact .inr ⟨rfl, .term hterm le_rfl hcut⟩
        · rw [heq, reduceFrom_run (by omega) hrun hys] at h
          rw [heq]
          split at h
          · rename_i hfits
            cases h
            exact .inl ⟨ds, rfl, .digits hrun hfits.1⟩
          · rename_i hno
            cases h
            refine .inr ⟨rfl, .misfit ⟨ds, ys, rfl, hrun, hys, ?_⟩⟩
            by_contra hboth
            rw [not_or] at hboth
            exact hno ⟨Nat.lt_of_not_le hboth.1,
              fun n hn => Nat.le_of_not_lt fun hlt => hboth.2 ⟨n, hn, hlt⟩⟩
        · rw [reduceFrom_succ hhead hstage, Prod.mk.injEq] at h
          obtain ⟨rfl, hlower⟩ := h
          rcases ih (by omega) (Prod.ext rfl hlower) with ⟨g, hg, hgroup⟩ | ⟨hnil, hcut⟩
          · exact .inl ⟨g, hg, hgroup.mono⟩
          · refine .inr ⟨hnil, ?_⟩
            change Cut (k + 1) (d :: xs) ((reduceFrom k (d :: xs)).1.getD 0)
            generalize (reduceFrom k (d :: xs)).1.getD 0 = v at hcut ⊢
            generalize d :: xs = ys at hcut hhead hmisfit ⊢
            cases hcut with
            | misfit h => exact (hmisfit _ h).elim
            | zero => exact (hhead rfl).elim
            | term hterm hle h => exact .term hterm (Nat.le_succ_of_le hle) h

theorem Term.pos {j n : Nat} {t : List Nat} (h : Term j t n) : 0 < n := by
  cases h with
  | unit => exact Nat.pow_pos (by decide)
  | times hpos _ _ => exact Nat.mul_pos hpos (Nat.pow_pos (by decide))
  | twenty => decide

theorem Run.base10_pos {ds : List Nat} (h : Run ds) : 0 < base10 ds := by
  match ds, h.length with
  | d :: n :: ds, _ =>
    have hle := le_base10From d (n :: ds)
    have heq : base10 (d :: n :: ds) = base10From d (n :: ds) := by simp [base10, base10From]
    have hne : d ≠ 0 := by simpa using h.head
    omega

theorem reduceFrom_pos_of_ne {k : Nat} (hk : k ≤ 3) {d v : Nat} {xs rest : List Nat} (hd : d ≠ 0)
    (h : reduceFrom k (d :: xs) = (some v, rest)) : 0 < v := by
  have hhead : (d :: xs).head? ≠ some 0 := by simpa using hd
  induction k with
  | zero =>
    rw [reduceFrom, reduceOnesDigit] at h
    split at h
    · cases h
    · cases h
      exact Nat.pos_of_ne_zero hd
  | succ k ih =>
    rcases reduceDigits_cases (j := k) hhead with ⟨t, n, ys, hterm, heq⟩ |
      ⟨ds, ys, hrun, hys, heq⟩ | ⟨hstage, -⟩
    · rw [heq, reduceFrom_term hterm le_rfl] at h
      cases h
      exact Nat.lt_of_lt_of_le hterm.pos (Nat.le_add_right _ _)
    · rw [heq, reduceFrom_run (by omega) hrun hys] at h
      split at h
      · cases h
        exact hrun.base10_pos
      · cases h
    · rw [reduceFrom_succ hhead hstage, Prod.mk.injEq] at h
      exact ih (by omega) (Prod.ext h.1 h.2)

theorem reduceFrom_pos {k : Nat} (hk : k ≤ 2) {xs rest : List Nat} {v : Nat}
    (h : reduceFrom (k + 1) xs = (some v, rest)) : 0 < v := by
  induction xs with
  | nil =>
    rw [reduceFrom_ends (by omega) ends_nil] at h
    cases h
  | cons d xs ih =>
    by_cases hd : d = 0
    · exact ih (by rwa [hd] at h)
    · exact reduceFrom_pos_of_ne (by omega) hd h

theorem Group.reduceNumber_eq {v : Nat} {g rest : List Nat} (h : Group 3 g v) (hpos : 0 < v)
    (hrest : Ends rest) : reduceNumberLessThan10000 (g ++ rest) = (some v, rest) := by
  obtain ⟨r, heq, hr⟩ := h.reduceFrom_eq le_rfl hrest
  rw [reduceNumberLessThan10000_eq, heq, if_pos ((all_head_iff rest).mpr hrest)]
  cases r with
  | none => exact absurd hr hpos.ne
  | some n => rw [← hr]; rfl

theorem Cut.reduceNumber_eq {v : Nat} {xs : List Nat} (h : Cut 3 xs v) (hpos : 0 < v) :
    reduceNumberLessThan10000 xs = (some v, []) := by
  obtain ⟨r, heq, hr⟩ := h.reduceFrom_eq le_rfl
  rw [reduceNumberLessThan10000_eq, heq, if_pos ((all_head_iff []).mpr ends_nil)]
  cases r with
  | none => exact absurd hr hpos.ne
  | some n => rw [← hr]; rfl

theorem reduceNumber_sound {xs rest : List Nat} {v : Nat}
    (h : reduceNumberLessThan10000 xs = (some v, rest)) :
    0 < v ∧ Ends rest ∧ ((∃ g, xs = g ++ rest ∧ Group 3 g v) ∨ rest = [] ∧ Cut 3 xs v) := by
  rw [reduceNumberLessThan10000_eq, Prod.mk.injEq] at h
  obtain ⟨hvalue, hrest⟩ := h
  split at hvalue
  · rename_i hends
    rw [hrest, all_head_iff] at hends
    have heq : reduceFrom 3 xs = (some v, rest) := Prod.ext hvalue hrest
    exact ⟨reduceFrom_pos le_rfl heq, hends, reduceFrom_sound le_rfl heq hends⟩
  · cases hvalue

/-! The whole sequence. -/

/-- A sequence of groups with falling big units, and the sum of the products of both. -/
inductive Reads : Nat → List Nat → Nat → Prop
  | last {lastBase v : Nat} {g : List Nat} (h : Group 3 g v) (hpos : 0 < v) : Reads lastBase g v
  | unit {lastBase base v : Nat} {g : List Nat} (h : Group 3 g v) (hpos : 0 < v)
    (hbig : 10000 ≤ base) (hlt : base < lastBase) : Reads lastBase (g ++ [base]) (v * base)
  | more {lastBase base v w : Nat} {g rest : List Nat} (h : Group 3 g v) (hpos : 0 < v)
    (hbig : 10000 ≤ base) (hlt : base < lastBase) (hrest : Reads base rest w) :
    Reads lastBase (g ++ base :: rest) (v * base + w)

/-- A sequence that is dropped behind the beginning of a group, and the value up to there. -/
inductive Dropped : Nat → List Nat → Nat → Prop
  | here {lastBase v : Nat} {xs : List Nat} (h : Cut 3 xs v) (hpos : 0 < v) :
    Dropped lastBase xs v
  | more {lastBase base v w : Nat} {g rest : List Nat} (h : Group 3 g v) (hpos : 0 < v)
    (hbig : 10000 ≤ base) (hlt : base < lastBase) (hrest : Dropped base rest w) :
    Dropped lastBase (g ++ base :: rest) (v * base + w)

theorem ends_cons {base : Nat} (h : 10000 ≤ base) (rest : List Nat) : Ends (base :: rest) := by
  intro n hn
  cases hn
  exact h

theorem interpretLoop_more {fuel lastBase base v output : Nat} {g rest : List Nat}
    (h : Group 3 g v) (hpos : 0 < v) (hbig : 10000 ≤ base) (hlt : base < lastBase)
    (hout : output < 2 ^ 64) :
    interpretLoop (fuel + 1) lastBase output (g ++ base :: rest) =
      if output + v * base < 2 ^ 64 then
        if rest.isEmpty then some (output + v * base)
        else interpretLoop fuel base (output + v * base) rest
      else none := by
  rw [interpretLoop, h.reduceNumber_eq hpos (ends_cons hbig rest)]
  dsimp only
  rw [if_neg (Nat.not_le.mpr hlt), multiplyAndCheckOverflow_eq]
  by_cases hmul : v * base < 2 ^ 64
  · rw [if_pos hmul, Option.bind_eq_bind, Option.bind_some, addAndCheckOverflow_eq hout]
    split
    · rfl
    · rfl
  · rw [if_neg hmul, if_neg (by omega)]
    rfl

theorem Reads.ne_nil {lastBase w : Nat} {xs : List Nat} (h : Reads lastBase xs w) : xs ≠ [] := by
  rintro rfl
  generalize hxs : ([] : List Nat) = xs at h
  cases h with
  | last h hpos =>
    subst hxs
    cases h.reduceNumber_eq hpos ends_nil
  | unit | more => simp at hxs

theorem Dropped.ne_nil {lastBase w : Nat} {xs : List Nat} (h : Dropped lastBase xs w) :
    xs ≠ [] := by
  rintro rfl
  generalize hxs : ([] : List Nat) = xs at h
  cases h with
  | here h hpos =>
    subst hxs
    cases h.reduceNumber_eq hpos
  | more => simp at hxs

theorem Reads.interpretLoop_eq {lastBase w fuel output : Nat} {xs : List Nat}
    (h : Reads lastBase xs w) (hfuel : xs.length < fuel) (hout : output < 2 ^ 64) :
    interpretLoop fuel lastBase output xs =
      if output + w < 2 ^ 64 then some (output + w) else none := by
  induction h generalizing fuel output with
  | last h hpos =>
    obtain ⟨fuel, rfl⟩ := Nat.exists_eq_succ_of_ne_zero (Nat.ne_zero_of_lt hfuel)
    have hgroup := h.reduceNumber_eq hpos ends_nil
    rw [List.append_nil] at hgroup
    rw [interpretLoop, hgroup]
    exact addAndCheckOverflow_eq hout
  | unit h hpos hbig hlt =>
    obtain ⟨fuel, rfl⟩ := Nat.exists_eq_succ_of_ne_zero (Nat.ne_zero_of_lt hfuel)
    rw [interpretLoop_more h hpos hbig hlt hout]
    rfl
  | @more lastBase base v w g rest h hpos hbig hlt hrest ih =>
    obtain ⟨fuel, rfl⟩ := Nat.exists_eq_succ_of_ne_zero (Nat.ne_zero_of_lt hfuel)
    rw [List.length_append, List.length_cons] at hfuel
    rw [interpretLoop_more h hpos hbig hlt hout, List.isEmpty_eq_false_iff.mpr hrest.ne_nil]
    by_cases hfits : output + v * base < 2 ^ 64
    · rw [if_pos hfits, if_neg Bool.false_ne_true, ih (by omega) hfits, Nat.add_assoc]
    · rw [if_neg hfits, if_neg (by omega)]

theorem Dropped.interpretLoop_eq {lastBase w fuel output : Nat} {xs : List Nat}
    (h : Dropped lastBase xs w) (hfuel : xs.length < fuel) (hout : output < 2 ^ 64) :
    interpretLoop fuel lastBase output xs =
      if output + w < 2 ^ 64 then some (output + w) else none := by
  induction h generalizing fuel output with
  | here h hpos =>
    obtain ⟨fuel, rfl⟩ := Nat.exists_eq_succ_of_ne_zero (Nat.ne_zero_of_lt hfuel)
    rw [interpretLoop, h.reduceNumber_eq hpos]
    exact addAndCheckOverflow_eq hout
  | @more lastBase base v w g rest h hpos hbig hlt hrest ih =>
    obtain ⟨fuel, rfl⟩ := Nat.exists_eq_succ_of_ne_zero (Nat.ne_zero_of_lt hfuel)
    rw [List.length_append, List.length_cons] at hfuel
    rw [interpretLoop_more h hpos hbig hlt hout, List.isEmpty_eq_false_iff.mpr hrest.ne_nil]
    by_cases hfits : output + v * base < 2 ^ 64
    · rw [if_pos hfits, if_neg Bool.false_ne_true, ih (by omega) hfits, Nat.add_assoc]
    · rw [if_neg hfits, if_neg (by omega)]

theorem interpretLoop_sound {fuel lastBase output u : Nat} {xs : List Nat}
    (h : interpretLoop fuel lastBase output xs = some u) (hout : output < 2 ^ 64) :
    ∃ w, u = output + w ∧ u < 2 ^ 64 ∧ (Reads lastBase xs w ∨ Dropped lastBase xs w) := by
  induction fuel generalizing lastBase output xs with
  | zero => cases h
  | succ fuel ih =>
    rw [interpretLoop] at h
    split at h
    · cases h
    · rename_i coef hgroup
      obtain ⟨hpos, -, hread⟩ := reduceNumber_sound hgroup
      rw [addAndCheckOverflow_eq hout] at h
      split at h
      · rename_i hfits
        cases h
        refine ⟨coef, rfl, hfits, ?_⟩
        rcases hread with ⟨g, rfl, hg⟩ | ⟨-, hcut⟩
        · rw [List.append_nil]
          exact .inl (.last hg hpos)
        · exact .inr (.here hcut hpos)
      · cases h
    · rename_i coef base rest hgroup
      obtain ⟨hpos, hends, hread⟩ := reduceNumber_sound hgroup
      obtain ⟨g, rfl, hg⟩ := hread.resolve_right fun h => by cases h.1
      have hbig : 10000 ≤ base := hends base rfl
      by_cases hlt : base < lastBase
      · have hmore := @interpretLoop_more fuel _ _ _ _ _ rest hg hpos hbig hlt hout
        rw [interpretLoop, hgroup] at hmore
        dsimp only at hmore
        rw [hmore] at h
        split at h
        · rename_i hfits
          split at h
          · rename_i hempty
            cases h
            rw [List.isEmpty_iff.mp hempty]
            exact ⟨_, rfl, hfits, .inl (.unit hg hpos hbig hlt)⟩
          · obtain ⟨w, rfl, hu, hrest⟩ := ih h hfits
            refine ⟨coef * base + w, Nat.add_assoc _ _ _, hu, ?_⟩
            rcases hrest with hrest | hrest
            · exact .inl (.more hg hpos hbig hlt hrest)
            · exact .inr (.more hg hpos hbig hlt hrest)
        · cases h
      · rw [if_pos (Nat.le_of_not_lt hlt)] at h
        cases h

/-! A sequence that is dropped is none of the grammar. -/

theorem Term.unique {i j m n : Nat} {t t' xs ys : List Nat} (h : Term (i + 1) t m)
    (h' : Term (j + 1) t' n) (heq : t ++ xs = t' ++ ys) : i = j ∧ xs = ys := by
  have hi := ten_le_pow i
  have hj := ten_le_pow j
  have hpow : 10 ^ (i + 1) = 10 ^ (j + 1) → i = j := fun h => by
    have := Nat.pow_right_injective (show 2 ≤ 10 by decide) h
    omega
  have hi20 := pow_ne_twenty (i + 1)
  have hj20 := pow_ne_twenty (j + 1)
  cases h with
  | unit =>
    cases h' with
    | unit =>
      simp only [List.cons_append, List.nil_append, List.cons.injEq] at heq
      exact ⟨hpow heq.1, heq.2⟩
    | times _ hlt _ =>
      simp only [List.cons_append, List.nil_append, List.cons.injEq] at heq
      omega
    | twenty =>
      simp only [List.cons_append, List.nil_append, List.cons.injEq] at heq
      exact (hi20 heq.1).elim
  | times _ hlt _ =>
    cases h' with
    | unit =>
      simp only [List.cons_append, List.nil_append, List.cons.injEq] at heq
      omega
    | times =>
      simp only [List.cons_append, List.nil_append, List.cons.injEq] at heq
      exact ⟨hpow heq.2.1, heq.2.2⟩
    | twenty =>
      simp only [List.cons_append, List.nil_append, List.cons.injEq] at heq
      omega
  | twenty =>
    cases h' with
    | unit =>
      simp only [List.cons_append, List.nil_append, List.cons.injEq] at heq
      exact (hj20 heq.1.symm).elim
    | times _ hlt _ =>
      simp only [List.cons_append, List.nil_append, List.cons.injEq] at heq
      omega
    | twenty =>
      simp only [List.cons_append, List.nil_append, List.cons.injEq] at heq
      exact ⟨rfl, heq.2⟩

theorem Term.not_run {j n : Nat} {t xs ds rest : List Nat} (h : Term (j + 1) t n) (hrun : Run ds) :
    t ++ xs ≠ ds ++ rest := by
  have hten := ten_le_pow j
  intro heq
  cases h with
  | unit => exact absurd (hrun.of_append heq).1 (by omega)
  | times =>
    obtain ⟨-, m, xs', hm, hlt⟩ := hrun.of_append heq
    cases hm
    omega
  | twenty => exact absurd (hrun.of_append heq).1 (by omega)

theorem Misfit.not_group {k v : Nat} {xs : List Nat} (h : Misfit (k + 1) xs) :
    ¬ Group (k + 1) xs v := by
  obtain ⟨ds, rest, rfl, hrun, hrest, hmisfit⟩ := h
  intro hgroup
  generalize hxs : ds ++ rest = xs at hgroup
  cases hgroup with
  | nil =>
    have := hrun.length
    rw [(List.append_eq_nil_iff.mp hxs).1] at this
    simp at this
  | zero _ => exact hrun.head_append rest (by rw [hxs]; rfl)
  | ones _ _ =>
    obtain ⟨-, n, xs', h, -⟩ := hrun.of_append hxs.symm
    cases h
  | digits hrun' hlt =>
    subst hxs
    cases rest with
    | nil =>
      rw [List.append_nil] at hlt
      rcases hmisfit with hge | ⟨n, hn, -⟩
      · exact Nat.not_le.mpr hlt hge
      · cases hn
    | cons n rest =>
      have := hrest n rfl
      have := hrun'.digit n (by simp)
      omega
  | term hterm _ _ => exact hterm.not_run hrun hxs.symm

theorem Cut.not_group {k v w : Nat} {xs : List Nat} (h : Cut k xs w) : ¬ Group k xs v := by
  induction h generalizing v with
  | misfit h => exact h.not_group
  | @zero k w xs h ih =>
    intro hgroup
    generalize hxs : 0 :: xs = ys at hgroup
    cases hgroup with
    | nil => cases hxs
    | zero h' =>
      cases hxs
      exact ih h'
    | ones _ hzero =>
      cases hxs
      exact Nat.succ_ne_zero k (hzero rfl)
    | digits hrun _ => exact hrun.head (by rw [← hxs]; rfl)
    | term hterm _ _ => exact hterm.head_ne _ (by rw [← hxs]; rfl)
  | @term j k n w t xs hterm hle h ih =>
    intro hgroup
    generalize hxs : t ++ xs = ys at hgroup
    cases hgroup with
    | nil =>
      rw [List.append_eq_nil_iff] at hxs
      cases hterm <;> simp at hxs
    | zero _ => exact hterm.head_ne xs (by rw [hxs]; rfl)
    | ones hlt _ =>
      have hten := ten_le_pow j
      cases hterm with
      | unit | twenty =>
        cases hxs
        omega
      | times => simp at hxs
    | digits hrun _ =>
      exact @Term.not_run _ _ _ xs _ [] hterm hrun (by rw [hxs, List.append_nil])
    | term hterm' _ h' =>
      obtain ⟨rfl, rfl⟩ := hterm.unique hterm' hxs
      exact ih h'

theorem Group.unique {v v' : Nat} {g g' rest rest' : List Nat} (h : Group 3 g v) (hpos : 0 < v)
    (hrest : Ends rest) (h' : Group 3 g' v') (hpos' : 0 < v') (hrest' : Ends rest')
    (heq : g ++ rest = g' ++ rest') : v = v' ∧ rest = rest' := by
  have hread := h.reduceNumber_eq hpos hrest
  rw [heq, h'.reduceNumber_eq hpos' hrest'] at hread
  cases hread
  exact ⟨rfl, rfl⟩

theorem Dropped.not_reads {lastBase v w : Nat} {xs : List Nat} (h : Dropped lastBase xs w) :
    ¬ Reads lastBase xs v := by
  induction h generalizing v with
  | @here lastBase w xs h hpos =>
    intro hreads
    have hread := h.reduceNumber_eq hpos
    cases hreads with
    | last h' _ => exact h.not_group h'
    | unit h' hpos' hbig _ =>
      rw [h'.reduceNumber_eq hpos' (ends_cons hbig [])] at hread
      cases hread
    | more h' hpos' hbig _ _ =>
      rw [h'.reduceNumber_eq hpos' (ends_cons hbig _)] at hread
      cases hread
  | @more lastBase base w w' g rest h hpos hbig hlt hrest ih =>
    intro hreads
    generalize hxs : g ++ base :: rest = xs at hreads
    cases hreads with
    | last h' hpos' =>
      rw [← List.append_nil xs] at hxs
      cases (h.unique hpos (ends_cons hbig rest) h' hpos' ends_nil hxs).2
    | unit h' hpos' hbig' _ =>
      cases (h.unique hpos (ends_cons hbig rest) h' hpos' (ends_cons hbig' []) hxs).2
      exact hrest.ne_nil rfl
    | more h' hpos' hbig' _ hrest' =>
      cases (h.unique hpos (ends_cons hbig rest) h' hpos' (ends_cons hbig' _) hxs).2
      exact ih hrest'

/-! `NormalizeNumbers`. -/

theorem normalizeNumbersHelper_eq {numbers : List Nat} (h : ∃ n ∈ numbers, 10 ≤ n) :
    normalizeNumbersHelper numbers = interpretLoop (numbers.length + 1) (2 ^ 64 - 1) 0 numbers := by
  obtain ⟨n, hn, hten⟩ := h
  rw [normalizeNumbersHelper]
  cases hmax : numbers.max? with
  | none =>
    rw [List.max?_eq_none_iff.mp hmax] at hn
    cases hn
  | some max =>
    have hle := (List.max?_eq_some_iff.mp hmax).2 n hn
    rw [Option.bind_eq_bind, Option.bind_some, if_neg (by omega)]
    rfl

theorem normalizeNumbers_eq {input : Text} {numbers : List Nat}
    (hnumbers : input.mapM kanjiNumberToArabicNumber = some numbers) (hunit : ∃ n ∈ numbers, 10 ≤ n)
    (trimLeadingZeros : Bool) :
    normalizeNumbers input trimLeadingZeros =
      (interpretLoop (numbers.length + 1) (2 ^ 64 - 1) 0 numbers).map fun n =>
        (input.flatMap kanjiText, arabicText trimLeadingZeros numbers n) := by
  have hne : numbers.isEmpty = false := by
    obtain ⟨n, hn, -⟩ := hunit
    exact List.isEmpty_eq_false_iff.mpr (List.ne_nil_of_mem hn)
  rw [normalizeNumbers, hnumbers, Option.bind_eq_bind, Option.bind_some, hne,
    if_neg Bool.false_ne_true, normalizeNumbersHelper_eq hunit, Option.map_eq_bind]
  rfl

/-- A text is read as the grammar reads it, with the sum of all its groups, or not at all. -/
def ReadsAll (input : Text) (numbers : List Nat) (trimLeadingZeros : Bool) : Prop :=
  (∀ kanji arabic, normalizeNumbers input trimLeadingZeros = some (kanji, arabic) →
    ∃ n < 2 ^ 64, Reads (2 ^ 64 - 1) numbers n ∧ arabic = arabicText trimLeadingZeros numbers n) ∧
  ∀ n, Reads (2 ^ 64 - 1) numbers n → 2 ^ 64 ≤ n → normalizeNumbers input trimLeadingZeros = none

/-- A text with a unit is read so unless it begins with a text that is read and is followed by
digits that have no place behind its last unit. -/
theorem readsAll_iff {input : Text} {numbers : List Nat}
    (hnumbers : input.mapM kanjiNumberToArabicNumber = some numbers) (hunit : ∃ n ∈ numbers, 10 ≤ n)
    (trimLeadingZeros : Bool) :
    ReadsAll input numbers trimLeadingZeros ↔ ¬ ∃ n < 2 ^ 64, Dropped (2 ^ 64 - 1) numbers n := by
  have heq := normalizeNumbers_eq hnumbers hunit trimLeadingZeros
  constructor
  · rintro ⟨hreads, -⟩ ⟨n, hn, hdropped⟩
    have hloop := hdropped.interpretLoop_eq (Nat.lt_succ_self _) (show 0 < 2 ^ 64 by decide)
    rw [Nat.zero_add, if_pos hn] at hloop
    rw [hloop] at heq
    obtain ⟨m, -, hm, -⟩ := hreads _ _ heq
    exact hdropped.not_reads hm
  · intro hno
    refine ⟨fun kanji arabic h => ?_, fun n hn hge => ?_⟩
    · rw [heq] at h
      obtain ⟨n, hloop, hout⟩ := Option.map_eq_some_iff.mp h
      cases hout
      obtain ⟨w, hw, hlt, hread⟩ := interpretLoop_sound hloop (by decide)
      rw [Nat.zero_add] at hw
      subst hw
      exact ⟨n, hlt, hread.resolve_right fun h => hno ⟨n, hlt, h⟩, rfl⟩
    · have hloop := hn.interpretLoop_eq (Nat.lt_succ_self _) (show 0 < 2 ^ 64 by decide)
      rw [heq, hloop, if_neg (by omega)]
      rfl

theorem dropped_behind_thousand : Dropped (2 ^ 64 - 1) [1000, 1, 2, 3, 4] 1000 := by
  refine .here (v := 1000) ?_ (by decide)
  refine .term (j := 2) (t := [1000]) (n := 1000) (v := 0) (.unit 3) (by decide) (.misfit ?_)
  refine ⟨[1, 2, 3, 4], [], rfl, ⟨by decide, by decide, by decide⟩, by simp, .inl ?_⟩
  decide

theorem readsAll_two_ten : ReadsAll ['二', '十'] [2, 10] true ∧
    normalizeNumbers ['二', '十'] true = some (['二', '十'], ['2', '0']) := by
  refine ⟨(readsAll_iff (by decide) ⟨10, by decide, by decide⟩ true).mpr ?_, by decide⟩
  rintro ⟨n, -, h⟩
  have hreads : Reads (2 ^ 64 - 1) [2, 10] 20 :=
    .last (.term (t := [2, 10]) (j := 0) (n := 20) (v := 0)
      (.times (by decide) (by decide) (by decide)) (by decide) .nil) (by decide)
  exact h.not_reads hreads

/-- 千一二三四 is read as 千, with the digits behind it dropped. -/
theorem readsAll_digits_dropped :
    normalizeNumbers ['千', '一', '二', '三', '四'] true =
      some (['千', '一', '二', '三', '四'], ['1', '0', '0', '0']) ∧
    (∀ n, ¬ Reads (2 ^ 64 - 1) [1000, 1, 2, 3, 4] n) ∧
    ¬ ReadsAll ['千', '一', '二', '三', '四'] [1000, 1, 2, 3, 4] true := by
  have hread : normalizeNumbers ['千', '一', '二', '三', '四'] true =
      some (['千', '一', '二', '三', '四'], ['1', '0', '0', '0']) := by decide
  have hno : ∀ n, ¬ Reads (2 ^ 64 - 1) [1000, 1, 2, 3, 4] n := fun n =>
    dropped_behind_thousand.not_reads
  refine ⟨hread, hno, fun h => ?_⟩
  obtain ⟨n, -, hn, -⟩ := h.1 _ _ hread
  exact hno n hn

end Mozkey.Base.NumberUtil
