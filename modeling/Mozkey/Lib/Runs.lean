import Mathlib

/-! Runs of a system that takes one event at a time. -/

namespace Mozkey.Lib

variable {σ ε : Type*}

/-- The states that are reached from `init` by some events, each of which meets `ok` where it
occurs. -/
inductive Run (step : σ → ε → Option σ) (ok : σ → ε → Prop) (init : σ) : List ε → σ → Prop
  | nil : Run step ok init [] init
  | snoc {es s e s'} : Run step ok init es s → ok s e → step s e = some s' →
      Run step ok init (es ++ [e]) s'

variable {step : σ → ε → Option σ} {ok : σ → ε → Prop} {init s : σ} {es : List ε}

theorem Run.inv {p : σ → Prop} (h : Run step ok init es s) (hinit : p init)
    (hstep : ∀ s e s', p s → ok s e → step s e = some s' → p s') : p s := by
  induction h with
  | nil => exact hinit
  | snoc _ hok hnext ih => exact hstep _ _ _ ih hok hnext

theorem Run.eq_of_nil (h : Run step ok init [] s) : s = init := by
  generalize hes : ([] : List ε) = es at h
  cases h with
  | nil => rfl
  | snoc => simp at hes

theorem Run.of_foldlM [∀ s e, Decidable (ok s e)]
    (h : es.foldlM (fun s e => if ok s e then step s e else none) init = some s) :
    Run step ok init es s := by
  induction es using List.reverseRecOn generalizing s with
  | nil =>
    obtain rfl : init = s := Option.some.inj h
    exact .nil
  | append_singleton es e ih =>
    rw [List.foldlM_append] at h
    obtain ⟨t, ht, hs⟩ := Option.bind_eq_some_iff.mp h
    rw [List.foldlM_cons] at hs
    obtain ⟨u, hu, hs⟩ := Option.bind_eq_some_iff.mp hs
    obtain rfl : u = s := Option.some.inj hs
    split at hu
    · exact (ih ht).snoc ‹_› hu
    · cases hu

end Mozkey.Lib
