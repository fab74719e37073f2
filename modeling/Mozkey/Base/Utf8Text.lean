import Mozkey.Base.Utf8

/-! Texts in valid UTF-8: their ends, and that there are finitely many characters. -/

namespace Mozkey.Base

open Storage

instance finite_char : Finite Char := by
  have hlt : ∀ c : Char, c.toNat < 0x110000 := by
    intro c
    rcases c.valid with h | ⟨-, h⟩
    · exact Nat.lt_trans h (by decide)
    · exact h
  apply Finite.of_injective fun c : Char => (⟨c.toNat, hlt c⟩ : Fin 0x110000)
  intro c d h
  exact Char.toNat_inj.mp (Fin.mk.inj h)

theorem trailing_of_utf8EncodeChar {c : Char} {b b' : UInt8} {bs : Bytes}
    (h : String.utf8EncodeChar c = b :: bs) (hb : b' ∈ bs) : isUtf8TrailingByte b' = true := by
  have hmod : ∀ n, isUtf8TrailingByte (UInt8.ofNat (n % 0x40 + 0x80)) = true :=
    fun n => (trailingByte_spec (n % 0x40) (Nat.mod_lt n (by decide))).1
  rw [String.utf8EncodeChar] at h
  change (if c.val.toNat ≤ 0x7f then _ else _) = _ at h
  generalize c.val.toNat = v at h
  split_ifs at h
  · obtain ⟨-, rfl⟩ := List.cons.inj h
    cases hb
  · obtain ⟨-, rfl⟩ := List.cons.inj h
    rw [List.mem_singleton.mp hb]
    exact hmod v
  · obtain ⟨-, rfl⟩ := List.cons.inj h
    rcases List.mem_cons.mp hb with rfl | hb
    · exact hmod (v / 64)
    · rw [List.mem_singleton.mp hb]
      exact hmod v
  · obtain ⟨-, rfl⟩ := List.cons.inj h
    rcases List.mem_cons.mp hb with rfl | hb
    · exact hmod (v / 4096)
    rcases List.mem_cons.mp hb with rfl | hb
    · exact hmod (v / 64)
    · rw [List.mem_singleton.mp hb]
      exact hmod v

theorem utf8_suffix {cs : List Char} {t : Bytes} (h : t <:+ utf8 cs) :
    (∃ b bs, t = b :: bs ∧ isUtf8TrailingByte b = true) ∨ ∃ ds, ds <:+ cs ∧ t = utf8 ds := by
  induction cs with
  | nil => exact .inr ⟨[], List.suffix_refl _, List.suffix_nil.mp h⟩
  | cons c cs ih =>
    have hrest : t <:+ utf8 cs →
        (∃ b bs, t = b :: bs ∧ isUtf8TrailingByte b = true) ∨ ∃ ds, ds <:+ c :: cs ∧ t = utf8 ds := by
      intro hsuffix
      rcases ih hsuffix with htrailing | ⟨ds, hds, rfl⟩
      · exact .inl htrailing
      · exact .inr ⟨ds, hds.trans (List.suffix_cons c cs), rfl⟩
    obtain ⟨before, hbefore⟩ := h
    rw [utf8_cons] at hbefore
    rcases List.append_eq_append_iff.mp hbefore with ⟨x, hchar, rfl⟩ | ⟨x, -, hcs⟩
    · cases before with
      | nil =>
        rw [List.nil_append] at hchar
        exact .inr ⟨c :: cs, List.suffix_refl _, by rw [utf8_cons, hchar]⟩
      | cons b before =>
        cases x with
        | nil => exact hrest (List.suffix_refl _)
        | cons b' x =>
          rw [List.cons_append] at hchar
          exact .inl ⟨b', x ++ utf8 cs, rfl, trailing_of_utf8EncodeChar hchar (by simp)⟩
    · exact hrest ⟨x, hcs.symm⟩

end Mozkey.Base
