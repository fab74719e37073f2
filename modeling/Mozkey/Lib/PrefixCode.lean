import Mathlib

/-! Codes whose words can be read off the front of a text, one symbol after another. -/

namespace Mozkey.Lib

variable {α β : Type*}

/-- `read` takes the word of a symbol off whatever follows it, and nothing off the empty text. -/
structure ReadsOff (read : List β → Option (α × List β)) (code : α → List β) : Prop where
  read_append : ∀ a rest, read (code a ++ rest) = some (a, rest)
  read_nil : read [] = none

namespace ReadsOff

variable {read : List β → Option (α × List β)} {code : α → List β}

theorem ne_nil (h : ReadsOff read code) (a : α) : code a ≠ [] := by
  intro hnil
  have hread := h.read_append a []
  rw [hnil, List.append_nil, h.read_nil] at hread
  cases hread

theorem append_inj (h : ReadsOff read code) {a b : α} {x y : List β}
    (heq : code a ++ x = code b ++ y) : a = b ∧ x = y := by
  have hread := h.read_append a x
  rw [heq, h.read_append] at hread
  obtain ⟨hab, hxy⟩ := Prod.mk.inj (Option.some.inj hread)
  exact ⟨hab.symm, hxy.symm⟩

theorem prefixFree (h : ReadsOff read code) {a b : α} (hbegins : code a <+: code b) : a = b := by
  obtain ⟨t, ht⟩ := hbegins
  rw [← List.append_nil (code b)] at ht
  exact (h.append_inj ht).1

theorem flatMap_prefix_iff (h : ReadsOff read code) {xs ys : List α} :
    xs.flatMap code <+: ys.flatMap code ↔ xs <+: ys := by
  constructor
  · intro hprefix
    induction xs generalizing ys with
    | nil => exact List.nil_prefix
    | cons x xs ih =>
      obtain ⟨t, ht⟩ := hprefix
      rw [List.flatMap_cons, List.append_assoc] at ht
      cases ys with
      | nil => exact absurd (List.append_eq_nil_iff.mp ht).1 (h.ne_nil x)
      | cons y ys =>
        rw [List.flatMap_cons] at ht
        obtain ⟨rfl, hrest⟩ := h.append_inj ht
        exact List.cons_prefix_cons.mpr ⟨rfl, ih ⟨t, hrest⟩⟩
  · rintro ⟨t, rfl⟩
    rw [List.flatMap_append]
    exact List.prefix_append _ _

theorem flatMap_injective (h : ReadsOff read code) :
    Function.Injective fun xs : List α => xs.flatMap code := by
  intro xs ys heq
  have heq : xs.flatMap code = ys.flatMap code := heq
  have hle : xs <+: ys := h.flatMap_prefix_iff.mp (heq ▸ List.prefix_refl _)
  have hge : ys <+: xs := h.flatMap_prefix_iff.mp (heq ▸ List.prefix_refl _)
  exact hle.eq_of_length_le hge.length_le

end ReadsOff

end Mozkey.Lib
