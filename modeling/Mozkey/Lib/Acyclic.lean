import Mathlib

/-! Relations without cycles. -/

namespace Mozkey.Lib

variable {α : Type*} {r : α → α → Prop}

theorem wellFounded_of_acyclic {s : Set α} (hs : s.Finite) (hmem : ∀ x y, r x y → y ∈ s)
    (hacyclic : ∀ x, ¬ Relation.TransGen r x x) : WellFounded fun y x => r x y := by
  have hfinite := hs.to_subtype
  have hwf : WellFounded (Relation.TransGen fun y x : s => r x y) := by
    have hirrefl : Std.Irrefl (Relation.TransGen fun y x : s => r x y) :=
      ⟨fun x hx => hacyclic x ((Relation.transGen_swap.mp hx).lift Subtype.val fun _ _ h => h)⟩
    exact Finite.wellFounded_of_trans_of_irrefl _
  have hacc : ∀ x : s, Acc (fun y x => r x y) x.val := by
    intro x
    induction x using hwf.induction with
    | _ x ih => exact ⟨_, fun y hy => ih ⟨y, hmem x y hy⟩ (.single hy)⟩
  exact ⟨fun x => ⟨x, fun y hy => hacc ⟨y, hmem x y hy⟩⟩⟩

end Mozkey.Lib
