import Mathlib

/-! Loops: a body that goes on with a new state or leaves with a result, run with some fuel. -/

namespace Mozkey.Lib

variable {σ ρ : Type*}

def loop (body : σ → σ ⊕ ρ) : Nat → σ → Option ρ
  | 0, _ => none
  | fuel + 1, s =>
    match body s with
    | .inl s' => loop body fuel s'
    | .inr r => some r

def LoopReaches (body : σ → σ ⊕ ρ) : σ → σ → Prop :=
  Relation.ReflTransGen fun s t => body s = .inl t

variable {body : σ → σ ⊕ ρ} {s t u : σ} {r : ρ}

theorem loop_eq_some_iff :
    (∃ fuel, loop body fuel s = some r) ↔ ∃ t, LoopReaches body s t ∧ body t = .inr r := by
  constructor
  · rintro ⟨fuel, hrun⟩
    induction fuel generalizing s with
    | zero => cases hrun
    | succ fuel ih =>
      rw [loop] at hrun
      rcases hbody : body s with s' | r'
      · rw [hbody] at hrun
        obtain ⟨t, hreach, hleave⟩ := ih hrun
        exact ⟨t, .head hbody hreach, hleave⟩
      · rw [hbody] at hrun
        obtain rfl := Option.some.inj hrun
        exact ⟨s, .refl, hbody⟩
  · rintro ⟨t, hreach, hleave⟩
    induction hreach using Relation.ReflTransGen.head_induction_on with
    | refl => exact ⟨1, by rw [loop, hleave]⟩
    | head hbody _ ih =>
      obtain ⟨fuel, hrun⟩ := ih
      exact ⟨fuel + 1, by rw [loop, hbody]; exact hrun⟩

theorem LoopReaches.to_last (hlast : LoopReaches body s t) (hleave : body t = .inr r)
    (hreach : LoopReaches body s u) : LoopReaches body u t := by
  have hunique : Relator.RightUnique fun s t => body s = .inl t := by
    intro a b c hb hc
    exact Sum.inl.inj (hb.symm.trans hc)
  rcases Relation.ReflTransGen.total_of_right_unique hunique hreach hlast with hut | htu
  · exact hut
  · rcases htu.cases_head with rfl | ⟨v, hbody, -⟩
    · exact .refl
    · rw [hleave] at hbody
      cases hbody

theorem loop_ends (inv : σ → Prop) (measure : σ → Nat) (hinv : inv s)
    (hround : ∀ s t, inv s → body s = .inl t → inv t ∧ measure t < measure s) :
    ∃ t r, LoopReaches body s t ∧ inv t ∧ body t = .inr r := by
  induction hm : measure s using Nat.strong_induction_on generalizing s with
  | _ n ih =>
    rcases hbody : body s with s' | r
    · obtain ⟨hinv', hlt⟩ := hround s s' hinv hbody
      obtain ⟨t, r, hreach, ht⟩ := ih (measure s') (hm ▸ hlt) hinv' rfl
      exact ⟨t, r, .head hbody hreach, ht⟩
    · exact ⟨s, r, .refl, hinv, hbody⟩

end Mozkey.Lib
