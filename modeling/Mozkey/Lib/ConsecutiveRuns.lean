import Mathlib

/-! Runs of consecutive entries with a property, and the scanners that count them. -/

namespace Mozkey.Lib

variable {α : Type*} (p : α → Bool) {k cur longest : Nat} {x : α} {xs ys : List α}

/-- Some `k` consecutive entries have the property. -/
def HasRun (k : Nat) (xs : List α) : Prop := ∃ run, run <:+: xs ∧ k ≤ run.length ∧ ∀ x ∈ run, p x

/-- The number of entries with the property at the start. -/
def lead (xs : List α) : Nat := (xs.takeWhile p).length

def runScan (k : Nat) : Nat → List α → Bool
  | _, [] => false
  | cur, x :: xs =>
    if p x then if cur + 1 ≥ k then true else runScan k (cur + 1) xs else runScan k 0 xs

/-- The length of the longest run, with the length of the current one. -/
def runLengths : Nat × Nat → List α → Nat × Nat
  | acc, [] => acc
  | (cur, longest), x :: xs =>
    if p x then runLengths (cur + 1, max longest (cur + 1)) xs else runLengths (0, longest) xs

variable {p}

theorem lead_cons_pos (h : p x = true) : lead p (x :: xs) = lead p xs + 1 := by
  rw [lead, List.takeWhile_cons_of_pos h, List.length_cons, lead]

theorem lead_cons_neg (h : ¬ p x = true) : lead p (x :: xs) = 0 := by
  rw [lead, List.takeWhile_cons_of_neg h, List.length_nil]

theorem length_le_lead (hpre : ys <+: xs) (hall : ∀ y ∈ ys, p y) : ys.length ≤ lead p xs := by
  obtain ⟨rest, rfl⟩ := hpre
  rw [lead, List.takeWhile_append_of_pos hall, List.length_append]
  exact Nat.le_add_right _ _

theorem hasRun_of_infix (h : HasRun p k xs) (hin : xs <:+: ys) : HasRun p k ys := by
  obtain ⟨run, hrun, hk, hall⟩ := h
  exact ⟨run, List.IsInfix.trans hrun hin, hk, hall⟩

theorem hasRun_of_lead (h : k ≤ lead p xs) : HasRun p k xs :=
  ⟨xs.takeWhile p, (List.takeWhile_prefix p).isInfix, h, fun _ hy => List.mem_takeWhile_imp hy⟩

theorem hasRun_cons :
    HasRun p k (x :: xs) ↔ k ≤ lead p (x :: xs) ∨ HasRun p k xs := by
  constructor
  · rintro ⟨run, hin, hlen, hall⟩
    rcases List.infix_cons_iff.mp hin with hpre | htail
    · exact Or.inl (Nat.le_trans hlen (length_le_lead hpre hall))
    · exact Or.inr ⟨run, htail, hlen, hall⟩
  · rintro (hlead | hrun)
    · exact hasRun_of_lead hlead
    · exact hasRun_of_infix hrun (List.suffix_cons x xs).isInfix

theorem not_hasRun_nil (hk : 0 < k) : ¬ HasRun p k [] := by
  rintro ⟨run, hin, hlen, -⟩
  rw [List.infix_nil.mp hin, List.length_nil] at hlen
  omega

theorem runScan_eq_true (hk : 0 < k) (hcur : cur < k) :
    runScan p k cur xs = true ↔ (0 < lead p xs ∧ k ≤ cur + lead p xs) ∨ HasRun p k xs := by
  induction xs generalizing cur with
  | nil => simp [runScan, lead, not_hasRun_nil hk]
  | cons x xs ih =>
    rw [runScan, hasRun_cons]
    by_cases hx : p x
    · rw [if_pos hx, lead_cons_pos hx]
      split
      · exact iff_of_true rfl (Or.inl (by omega))
      · rw [ih (by omega)]
        constructor
        · rintro (h | h)
          · exact Or.inl (by omega)
          · exact Or.inr (Or.inr h)
        · rintro (h | h | h)
          · exact Or.inl (by omega)
          · exact Or.inl (by omega)
          · exact Or.inr h
    · rw [if_neg hx, lead_cons_neg hx, ih hk]
      constructor
      · rintro (h | h)
        · exact Or.inr (Or.inr (hasRun_of_lead (by omega)))
        · exact Or.inr (Or.inr h)
      · rintro (h | h | h)
        · omega
        · omega
        · exact Or.inr h

theorem runScan_iff (hk : 0 < k) : runScan p k 0 xs = true ↔ HasRun p k xs := by
  rw [runScan_eq_true hk hk]
  exact ⟨fun h => h.elim (fun h => hasRun_of_lead (by omega)) id, Or.inr⟩

theorem le_runLengths (hk : 0 < k) : k ≤ (runLengths p (cur, longest) xs).2 ↔
    k ≤ longest ∨ (0 < lead p xs ∧ k ≤ cur + lead p xs) ∨ HasRun p k xs := by
  induction xs generalizing cur longest with
  | nil => simp [runLengths, lead, not_hasRun_nil hk]
  | cons x xs ih =>
    rw [runLengths, hasRun_cons]
    by_cases hx : p x
    · rw [if_pos hx, lead_cons_pos hx, ih]
      constructor
      · rintro (h | h | h)
        · rcases Nat.le_total longest (cur + 1) with hle | hle
          · exact Or.inr (Or.inl (by omega))
          · exact Or.inl (by omega)
        · exact Or.inr (Or.inl (by omega))
        · exact Or.inr (Or.inr (Or.inr h))
      · rintro (h | h | h | h)
        · exact Or.inl (by omega)
        · by_cases hlead : 0 < lead p xs
          · exact Or.inr (Or.inl (by omega))
          · exact Or.inl (by omega)
        · by_cases hlead : 0 < lead p xs
          · exact Or.inr (Or.inl (by omega))
          · exact Or.inl (by omega)
        · exact Or.inr (Or.inr h)
    · rw [if_neg hx, lead_cons_neg hx, ih]
      constructor
      · rintro (h | h | h)
        · exact Or.inl h
        · exact Or.inr (Or.inr (Or.inr (hasRun_of_lead (by omega))))
        · exact Or.inr (Or.inr (Or.inr h))
      · rintro (h | h | h | h)
        · exact Or.inl h
        · omega
        · omega
        · exact Or.inr (Or.inr h)

theorem le_runLengths_iff (hk : 0 < k) : k ≤ (runLengths p (0, 0) xs).2 ↔ HasRun p k xs := by
  rw [le_runLengths hk]
  constructor
  · rintro (h | h | h)
    · omega
    · exact hasRun_of_lead (by omega)
    · exact h
  · exact fun h => Or.inr (Or.inr h)

end Mozkey.Lib
