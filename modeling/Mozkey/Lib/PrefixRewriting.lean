import Mathlib

/-! Rewriting of a text at its beginning, by a partial function that looks at a bounded number of
letters and keeps what follows, or drops it as a whole.  Over a finite alphabet such a rewriting goes
on for ever exactly if a text comes back, either as itself or, whatever follows it, as the beginning
of a longer one. -/

namespace Mozkey.Lib.PrefixRewriting

variable {α : Type}

def Rewrites (step : List α → Option (List α)) (u v : List α) : Prop := step u = some v

/-- Only a bounded beginning of the text is looked at; all behind it is kept, or all is dropped and
a bounded text left. -/
def Local (step : List α → Option (List α)) (bound : Nat) : Prop :=
  ∀ u, bound ≤ u.length → (∀ x, step (u ++ x) = (step u).map (· ++ x)) ∨
    ∃ w, w.length ≤ bound ∧ ∀ x, step (u ++ x) = some w

def Terminates (step : List α → Option (List α)) (u : List α) : Prop :=
  Acc (fun v u => Rewrites step u v) u

/-- A text that the text is rewritten to comes back. -/
inductive Recurs (step : List α → Option (List α)) (u : List α) : Prop
  | again {v : List α} : Relation.ReflTransGen (Rewrites step) u v →
      Relation.TransGen (Rewrites step) v v → Recurs step u
  | longer {h x t : List α} : Relation.ReflTransGen (Rewrites step) u (h ++ x) →
      (∀ y, Relation.TransGen (Rewrites step) (h ++ y) (h ++ t ++ y)) → Recurs step u

variable {step : List α → Option (List α)} {u v : List α}

theorem Terminates.of_reaches (h : Terminates step u)
    (hreach : Relation.ReflTransGen (Rewrites step) u v) : Terminates step v := by
  induction hreach with
  | refl => exact h
  | tail _ hstep ih => exact ih.inv hstep

theorem Terminates.of_transGen (h : Terminates step u)
    (hreach : Relation.TransGen (Rewrites step) u v) : Terminates step v :=
  h.of_reaches hreach.to_reflTransGen

theorem Terminates.induction {P : List α → Prop} (h : Terminates step u)
    (hP : ∀ u, (∀ v, Relation.TransGen (Rewrites step) u v → P v) → P u) : P u := by
  have hacc : Acc (fun v u => Relation.TransGen (Rewrites step) u v) u := by
    have htrans : Acc (Relation.TransGen fun v u => Rewrites step u v) u := Acc.transGen h
    apply Subrelation.accessible _ htrans
    intro v u huv
    exact Relation.transGen_swap.mp huv
  induction hacc with
  | intro u _ ih => exact hP u fun v huv => ih v huv (h.of_transGen huv)

theorem Recurs.not_terminates (h : Recurs step u) : ¬ Terminates step u := by
  intro hend
  cases h with
  | @again v hreach hloop =>
    have hv := hend.of_reaches hreach
    refine hv.induction (P := fun w => Relation.TransGen (Rewrites step) w w → False) ?_ hloop
    exact fun w ih hw => ih w hw hw
  | @longer h x t hreach hloop =>
    have hv := hend.of_reaches hreach
    refine hv.induction (P := fun w => ∀ y, w = h ++ y → False) ?_ x rfl
    rintro w ih y rfl
    exact ih (h ++ t ++ y) (hloop y) (t ++ y) (List.append_assoc h t y)

/-! A rewriting that does not end is a sequence of texts. -/

theorem exists_sequence (h : ¬ Terminates step u) :
    ∃ f : ℕ → List α, f 0 = u ∧ ∀ n, Rewrites step (f n) (f (n + 1)) := by
  have hnext : ∀ w : {w // ¬ Terminates step w},
      ∃ w' : {w // ¬ Terminates step w}, Rewrites step w.1 w'.1 := by
    rintro ⟨w, hw⟩
    by_contra hnone
    refine hw ⟨w, fun w' hstep => ?_⟩
    by_contra hw'
    exact hnone ⟨⟨w', hw'⟩, hstep⟩
  choose next hstep using hnext
  refine ⟨fun n => (next^[n] ⟨u, h⟩).1, rfl, fun n => ?_⟩
  dsimp only
  rw [Function.iterate_succ_apply']
  exact hstep _

variable {f : ℕ → List α}

theorem reaches_of_sequence (hf : ∀ n, Rewrites step (f n) (f (n + 1))) {m n : ℕ} (h : m ≤ n) :
    Relation.ReflTransGen (Rewrites step) (f m) (f n) := by
  induction n, h using Nat.le_induction with
  | base => exact .refl
  | succ n _ ih => exact ih.tail (hf n)

theorem transGen_of_sequence (hf : ∀ n, Rewrites step (f n) (f (n + 1))) {m n : ℕ} (h : m < n) :
    Relation.TransGen (Rewrites step) (f m) (f n) :=
  Relation.TransGen.trans_left (.single (hf m)) (reaches_of_sequence hf h)

theorem sequence_keeps {bound : Nat} (hlocal : Local step bound)
    (hf : ∀ n, Rewrites step (f n) (f (n + 1))) {m : ℕ} (hbound : bound < (f m).length)
    (hmin : ∀ n, m ≤ n → (f m).length ≤ (f n).length) {n : ℕ} (h : m ≤ n) :
    ∃ g, f n = g ++ (f m).drop bound ∧ bound ≤ g.length ∧
      (∀ y, Relation.ReflTransGen (Rewrites step) ((f m).take bound ++ y) (g ++ y)) ∧
      (m < n → ∀ y, Relation.TransGen (Rewrites step) ((f m).take bound ++ y) (g ++ y)) := by
  induction n, h using Nat.le_induction with
  | base =>
    refine ⟨(f m).take bound, (List.take_append_drop _ _).symm, ?_, fun y => .refl, ?_⟩
    · rw [List.length_take]
      omega
    · intro hlt
      exact absurd hlt (Nat.lt_irrefl m)
  | succ n hmn ih =>
    obtain ⟨g, hg, hlong, hreach, -⟩ := ih
    have hstep := hf n
    have hlength := hmin (n + 1) (Nat.le_succ_of_le hmn)
    rw [Rewrites, hg] at hstep
    rcases hlocal g hlong with hkept | ⟨w, hw, hdropped⟩
    swap
    · -- The text that is left where all is dropped would be shorter.
      rw [hdropped] at hstep
      obtain rfl := Option.some.inj hstep
      omega
    rw [hkept, Option.map_eq_some_iff] at hstep
    obtain ⟨g', hg', hnext⟩ := hstep
    have hlast : ∀ y, Rewrites step (g ++ y) (g' ++ y) := by
      intro y
      rw [Rewrites, hkept, hg']
      rfl
    refine ⟨g', hnext.symm, ?_, fun y => (hreach y).tail (hlast y),
      fun _ y => .tail' (hreach y) (hlast y)⟩
    rw [← hnext, List.length_append, List.length_drop] at hlength
    omega

theorem exists_lt_eq_of_bounded [Finite α] {s : Set ℕ} (hs : s.Infinite) (f : ℕ → List α) {bound : ℕ}
    (hbound : ∀ n ∈ s, (f n).length ≤ bound) : ∃ m ∈ s, ∃ n ∈ s, m < n ∧ f m = f n :=
  hs.exists_lt_map_eq_of_mapsTo (fun n hn => hbound n hn) (List.finite_length_le α bound)

theorem infinite_minima {f : ℕ → List α} (hgrow : ∀ bound, {n | (f n).length ≤ bound}.Finite)
    (bound : ℕ) :
    {m | bound ≤ (f m).length ∧ ∀ n, m ≤ n → (f m).length ≤ (f n).length}.Infinite := by
  rw [Set.infinite_iff_exists_gt]
  intro a
  -- The first positions, and all with a short text, are left out; a shortest text is left.
  obtain ⟨k, hk⟩ := (hgrow bound).bddAbove
  obtain ⟨m, hm, hmin⟩ := WellFounded.has_min (measure fun n => (f n).length).wf
    {n | a < n ∧ k < n} ⟨a + k + 1, by constructor <;> omega⟩
  refine ⟨m, ⟨?_, fun n hmn => ?_⟩, hm.1⟩
  · by_contra hshort
    exact absurd (hk (Nat.le_of_not_le hshort)) (Nat.not_le_of_lt hm.2)
  · by_contra hlt
    exact hmin n ⟨Nat.lt_of_lt_of_le hm.1 hmn, Nat.lt_of_lt_of_le hm.2 hmn⟩ (Nat.lt_of_not_le hlt)

theorem terminates_iff [Finite α] {bound : Nat} (hlocal : Local step bound) (u : List α) :
    Terminates step u ↔ ¬ Recurs step u := by
  refine ⟨fun hend hrecurs => hrecurs.not_terminates hend, fun hnone => ?_⟩
  by_contra hend
  obtain ⟨f, rfl, hf⟩ := exists_sequence hend
  refine hnone ?_
  by_cases hgrow : ∀ bound, {n | (f n).length ≤ bound}.Finite
  · -- The beginnings of the shortest texts are of the same length, so two of them are the same.
    obtain ⟨m, ⟨hm, hmin⟩, n, ⟨hn, -⟩, hlt, heq⟩ :=
      exists_lt_eq_of_bounded (infinite_minima hgrow (bound + 1)) (fun n => (f n).take bound)
        fun n _ => List.length_take_le bound (f n)
    obtain ⟨g, hg, hlong, -, hloop⟩ := sequence_keeps hlocal hf hm hmin (Nat.le_of_lt hlt)
    have hhead : g = (f m).take bound ++ g.drop bound := by
      rw [heq, hg, List.take_append_of_le_length hlong, List.take_append_drop]
    have hreach := reaches_of_sequence hf (Nat.zero_le m)
    rw [← List.take_append_drop bound (f m)] at hreach
    have hlonger : ∀ y, Relation.TransGen (Rewrites step) ((f m).take bound ++ y)
        ((f m).take bound ++ g.drop bound ++ y) := by
      intro y
      rw [← hhead]
      exact hloop hlt y
    exact .longer hreach hlonger
  · push Not at hgrow
    obtain ⟨length, hinfinite⟩ := hgrow
    obtain ⟨m, -, n, -, hlt, heq⟩ := exists_lt_eq_of_bounded hinfinite f fun n hn => hn
    refine .again (reaches_of_sequence hf (Nat.zero_le m)) ?_
    have hloop := transGen_of_sequence hf hlt
    rwa [← heq] at hloop

end Mozkey.Lib.PrefixRewriting
