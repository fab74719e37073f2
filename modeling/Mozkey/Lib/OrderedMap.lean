import Mozkey.Lib.KeyedList

/-! Ordered maps: entries in the strict order of their keys, as an ordered container holds them, and
the maps of totals that come from adding weights up under keys. -/

namespace Mozkey.Lib

variable {α β κ ν ρ M : Type*}

/-- A comparison that orders all values strictly. -/
class StrictLess (less : α → α → Bool) : Prop where
  irrefl : ∀ a, less a a = false
  trans : ∀ {a b c}, less a b = true → less b c = true → less a c = true
  total : ∀ {a b}, a ≠ b → less a b = true ∨ less b a = true

theorem StrictLess.ne {less : α → α → Bool} [StrictLess less] {a b : α} (h : less a b = true) :
    a ≠ b := by
  rintro rfl
  have hirrefl : less a a = false := StrictLess.irrefl a
  rw [h] at hirrefl
  cases hirrefl

theorem StrictLess.asymm {less : α → α → Bool} [StrictLess less] {a b : α} (h : less a b = true) :
    less b a = false := by
  rw [Bool.eq_false_iff]
  intro hba
  exact StrictLess.ne (StrictLess.trans h hba) rfl

/-- The comparison of pairs, by the first components where these differ. -/
def lexLess (less : α → α → Bool) (less' : β → β → Bool) (p q : α × β) : Bool :=
  less p.1 q.1 || (!less q.1 p.1 && less' p.2 q.2)

instance strictLess_lexLess {less : α → α → Bool} {less' : β → β → Bool} [h : StrictLess less]
    [h' : StrictLess less'] : StrictLess (lexLess less less') where
  irrefl p := by
    simp [lexLess, h.irrefl, h'.irrefl]
  trans {p q r} hpq hqr := by
    simp only [lexLess, Bool.or_eq_true, Bool.and_eq_true, Bool.not_eq_true'] at hpq hqr ⊢
    rcases hpq with hpq | ⟨hpq, hpq'⟩ <;> rcases hqr with hqr | ⟨hqr, hqr'⟩
    · exact .inl (h.trans hpq hqr)
    · by_cases heq : q.1 = r.1
      · exact .inl (heq ▸ hpq)
      · rcases h.total heq with hlt | hlt
        · exact .inl (h.trans hpq hlt)
        · rw [hqr] at hlt
          cases hlt
    · by_cases heq : p.1 = q.1
      · exact .inl (heq ▸ hqr)
      · rcases h.total heq with hlt | hlt
        · exact .inl (h.trans hlt hqr)
        · rw [hpq] at hlt
          cases hlt
    · by_cases heq : p.1 = q.1
      · exact .inr ⟨heq ▸ hqr, h'.trans hpq' hqr'⟩
      · rcases h.total heq with hlt | hlt
        · by_cases heq' : q.1 = r.1
          · exact .inl (heq' ▸ hlt)
          · rcases h.total heq' with hlt' | hlt'
            · exact .inl (h.trans hlt hlt')
            · rw [hqr] at hlt'
              cases hlt'
        · rw [hpq] at hlt
          cases hlt
  total {p q} hne := by
    simp only [lexLess, Bool.or_eq_true, Bool.and_eq_true, Bool.not_eq_true']
    by_cases heq : p.1 = q.1
    · have hne' : p.2 ≠ q.2 := fun heq' => hne (Prod.ext heq heq')
      rw [heq, h.irrefl]
      rcases h'.total hne' with hlt | hlt
      · exact .inl (.inr ⟨rfl, hlt⟩)
      · exact .inr (.inr ⟨rfl, hlt⟩)
    · rcases h.total heq with hlt | hlt
      · exact .inl (.inl hlt)
      · exact .inr (.inl hlt)

theorem lexLess_eq_ite [DecidableEq α] {less : α → α → Bool} (less' : β → β → Bool) [h : StrictLess less]
    (p q : α × β) :
    lexLess less less' p q = if p.1 ≠ q.1 then less p.1 q.1 else less' p.2 q.2 := by
  rw [lexLess]
  split
  · rename_i hne
    rcases h.total hne with hlt | hlt
    · rw [hlt, Bool.true_or]
    · rw [hlt, StrictLess.asymm hlt]
      rfl
  · rename_i heq
    rw [not_not.mp heq, h.irrefl]
    rfl

theorem pairwise_insertionSort_less {less : β → β → Bool} [StrictLess less] {f : α → β}
    {r : α → α → Prop} [DecidableRel r] (hr : ∀ a b, r a b ↔ less (f b) (f a) = false) {xs : List α}
    (h : (xs.map f).Nodup) :
    (xs.insertionSort r).Pairwise fun a b => less (f a) (f b) = true := by
  have htotal : Std.Total r := ⟨fun a b => by
    rw [hr, hr]
    rcases hab : less (f b) (f a) with _ | _
    · exact .inl rfl
    · exact .inr (StrictLess.asymm hab)⟩
  have htrans : IsTrans α r := ⟨fun a b c hab hbc => by
    rw [hr] at hab hbc ⊢
    rw [Bool.eq_false_iff]
    intro hca
    by_cases heq : f b = f c
    · rw [← heq, hab] at hca
      cases hca
    · have hless : less (f b) (f c) = true ∨ less (f c) (f b) = true := StrictLess.total heq
      rcases hless with hlt | hlt
      · rw [StrictLess.trans hlt hca] at hab
        cases hab
      · rw [hlt] at hbc
        cases hbc⟩
  have hsorted := List.pairwise_insertionSort r xs
  have hnodup : (xs.insertionSort r).Pairwise fun a b => f a ≠ f b := by
    refine List.pairwise_map.mp ?_
    exact ((List.perm_insertionSort r xs).map f).nodup_iff.mpr h
  refine (hsorted.and hnodup).imp ?_
  rintro a b ⟨hab, hne⟩
  rw [hr] at hab
  have hless : less (f a) (f b) = true ∨ less (f b) (f a) = true := StrictLess.total hne
  rcases hless with hlt | hlt
  · exact hlt
  · rw [hab] at hlt
    cases hlt

section orders

variable [LT α] [LE α] [DecidableLT α]

def ascending (a b : α) : Bool := decide (a < b)

def descending (a b : α) : Bool := decide (b < a)

variable [Std.IsLinearOrder α] [Std.LawfulOrderLT α]

omit [DecidableLT α] in
theorem lt_or_lt_of_ne {a b : α} (h : a ≠ b) : a < b ∨ b < a := by
  by_contra hnot
  rw [not_or, Std.not_lt, Std.not_lt] at hnot
  exact h (Std.le_antisymm hnot.2 hnot.1)

instance strictLess_ascending : StrictLess (ascending : α → α → Bool) where
  irrefl _ := decide_eq_false Std.lt_irrefl
  trans hab hbc := decide_eq_true (Std.lt_trans (of_decide_eq_true hab) (of_decide_eq_true hbc))
  total hne := (lt_or_lt_of_ne hne).imp decide_eq_true decide_eq_true

instance strictLess_descending : StrictLess (descending : α → α → Bool) where
  irrefl _ := decide_eq_false Std.lt_irrefl
  trans hab hbc := decide_eq_true (Std.lt_trans (of_decide_eq_true hbc) (of_decide_eq_true hab))
  total hne := (lt_or_lt_of_ne hne).symm.imp decide_eq_true decide_eq_true

end orders

structure OrderedMap (κ ν : Type*) (less : κ → κ → Bool) where
  entries : List (κ × ν)
  sorted : entries.Pairwise fun a b => less a.1 b.1 = true

namespace OrderedMap

variable {less : κ → κ → Bool}

def empty : OrderedMap κ ν less := ⟨[], .nil⟩

/-- The entries with the value of a key replaced, which is `init` where the key is new. -/
def updateEntries (less : κ → κ → Bool) (k : κ) (init : ν) (f : ν → ν) : List (κ × ν) → List (κ × ν)
  | [] => [(k, f init)]
  | e :: entries =>
    if less k e.1 then (k, f init) :: e :: entries
    else if less e.1 k then e :: updateEntries less k init f entries
    else (e.1, f e.2) :: entries

theorem mem_keys_updateEntries {k k' : κ} {init : ν} {f : ν → ν} {entries : List (κ × ν)}
    (h : k' ∈ (updateEntries less k init f entries).map Prod.fst) :
    k' = k ∨ k' ∈ entries.map Prod.fst := by
  induction entries with
  | nil => exact .inl (List.mem_singleton.mp h)
  | cons e entries ih =>
    rw [updateEntries] at h
    split at h
    · simpa using h
    split at h
    · rw [List.map_cons, List.mem_cons] at h ⊢
      rcases h with rfl | h
      · exact .inr (.inl rfl)
      · rcases ih h with rfl | h
        · exact .inl rfl
        · exact .inr (.inr h)
    · exact .inr h

variable [StrictLess less]

theorem sorted_updateEntries {entries : List (κ × ν)}
    (h : entries.Pairwise fun a b => less a.1 b.1 = true) (k : κ) (init : ν) (f : ν → ν) :
    (updateEntries less k init f entries).Pairwise fun a b => less a.1 b.1 = true := by
  induction entries with
  | nil => exact List.pairwise_singleton _ _
  | cons e entries ih =>
    obtain ⟨hfirst, hrest⟩ := List.pairwise_cons.mp h
    rw [updateEntries]
    split
    · rename_i hlt
      refine List.pairwise_cons.mpr ⟨?_, h⟩
      intro e' hmem
      rcases List.mem_cons.mp hmem with rfl | hmem
      · exact hlt
      · exact StrictLess.trans hlt (hfirst e' hmem)
    split
    · rename_i hlt
      refine List.pairwise_cons.mpr ⟨?_, ih hrest⟩
      intro e' hmem
      rcases mem_keys_updateEntries (List.mem_map_of_mem hmem) with heq | hmem
      · rw [heq]
        exact hlt
      · obtain ⟨e'', hmem'', heq⟩ := List.mem_map.mp hmem
        rw [← heq]
        exact hfirst e'' hmem''
    · exact List.pairwise_cons.mpr ⟨hfirst, hrest⟩

def update (m : OrderedMap κ ν less) (k : κ) (init : ν) (f : ν → ν) : OrderedMap κ ν less :=
  ⟨updateEntries less k init f m.entries, sorted_updateEntries m.sorted k init f⟩

theorem nodup_keys (m : OrderedMap κ ν less) : (m.entries.map Prod.fst).Nodup := by
  refine List.pairwise_map.mpr (m.sorted.imp ?_)
  exact fun hlt => StrictLess.ne hlt

variable [DecidableEq κ]

def get? (m : OrderedMap κ ν less) (k : κ) : Option ν :=
  (m.entries.find? fun e => e.1 = k).map Prod.snd

theorem get?_eq_some_iff {m : OrderedMap κ ν less} {k : κ} {v : ν} :
    m.get? k = some v ↔ (k, v) ∈ m.entries := by
  rw [get?, Option.map_eq_some_iff]
  constructor
  · rintro ⟨e, hfind, rfl⟩
    obtain ⟨hmem, rfl⟩ := (find?_eq_some_iff_mem m.nodup_keys).mp hfind
    exact hmem
  · intro hmem
    exact ⟨(k, v), (find?_eq_some_iff_mem m.nodup_keys).mpr ⟨hmem, rfl⟩, rfl⟩

theorem ext_get? {m m' : OrderedMap κ ν less} (h : ∀ k, m.get? k = m'.get? k) : m = m' := by
  have hperm : m.entries.Perm m'.entries := by
    rw [List.perm_ext_iff_of_nodup m.nodup_keys.of_map m'.nodup_keys.of_map]
    intro e
    rw [← get?_eq_some_iff, ← get?_eq_some_iff, h]
  have heq : m.entries = m'.entries := by
    refine hperm.eq_of_pairwise ?_ m.sorted m'.sorted
    intro a b _ _ hab hba
    rw [StrictLess.asymm hab] at hba
    cases hba
  cases m
  cases m'
  congr

theorem find?_updateEntries (k k' : κ) (init : ν) (f : ν → ν) {entries : List (κ × ν)}
    (h : entries.Pairwise fun a b => less a.1 b.1 = true) :
    ((updateEntries less k init f entries).find? fun e => e.1 = k').map Prod.snd =
      if k' = k then some (f (((entries.find? fun e => e.1 = k).map Prod.snd).getD init))
      else (entries.find? fun e => e.1 = k').map Prod.snd := by
  induction entries with
  | nil =>
    rw [updateEntries, find?_cons_key]
    by_cases heq : k' = k
    · rw [if_pos heq, if_pos heq.symm]
      rfl
    · rw [if_neg heq, if_neg (Ne.symm heq)]
  | cons e entries ih =>
    obtain ⟨hfirst, hrest⟩ := List.pairwise_cons.mp h
    rw [updateEntries]
    split
    · rename_i hlt
      have hnew : (e :: entries).find? (fun e => e.1 = k) = none := by
        apply find?_of_forall_ne
        intro e' hmem
        rcases List.mem_cons.mp hmem with rfl | hmem
        · exact (StrictLess.ne hlt).symm
        · exact (StrictLess.ne (StrictLess.trans hlt (hfirst e' hmem))).symm
      rw [find?_cons_key, hnew]
      by_cases heq : k' = k
      · rw [if_pos heq, if_pos heq.symm]
        rfl
      · rw [if_neg heq, if_neg (Ne.symm heq)]
    rename_i hnot
    split
    · rename_i hlt
      have hne : e.1 ≠ k := StrictLess.ne hlt
      rw [find?_cons_key, find?_cons_key, find?_cons_key, if_neg hne]
      by_cases hkey : e.1 = k'
      · have heq : k' ≠ k := hkey ▸ hne
        rw [if_pos hkey, if_neg heq, if_pos hkey]
      · rw [if_neg hkey, if_neg hkey]
        exact ih hrest
    · rename_i hnot'
      have hkey : e.1 = k := by
        by_contra hne
        have htotal : less e.1 k = true ∨ less k e.1 = true := StrictLess.total hne
        rcases htotal with hlt | hlt
        · exact hnot' hlt
        · exact hnot hlt
      rw [find?_cons_key, find?_cons_key, find?_cons_key, if_pos hkey, hkey]
      by_cases heq : k' = k
      · rw [if_pos heq, if_pos heq.symm]
        rfl
      · rw [if_neg heq, if_neg (Ne.symm heq), if_neg (Ne.symm heq)]

theorem get?_update (m : OrderedMap κ ν less) (k k' : κ) (init : ν) (f : ν → ν) :
    (m.update k init f).get? k' =
      if k' = k then some (f ((m.get? k).getD init)) else m.get? k' :=
  find?_updateEntries k k' init f m.sorted

section totals

variable [AddCommMonoid M]

def totals (less : κ → κ → Bool) [StrictLess less] (key : ρ → κ) (weight : ρ → M) (rs : List ρ) :
    OrderedMap κ M less :=
  rs.foldl (fun m r => m.update (key r) 0 (· + weight r)) empty

variable {key : ρ → κ} {weight : ρ → M}

omit [DecidableEq κ] in
theorem totals_concat (rs : List ρ) (r : ρ) : totals less key weight (rs ++ [r]) =
    (totals less key weight rs).update (key r) 0 (· + weight r) := by
  rw [totals, List.foldl_append]
  rfl

theorem getD_get?_totals (rs : List ρ) (k : κ) : ((totals less key weight rs).get? k).getD 0 =
    ((rs.filter fun r => key r = k).map weight).sum := by
  induction rs using List.reverseRecOn with
  | nil => rfl
  | append_singleton rs r ih =>
    rw [totals_concat, get?_update, List.filter_append, List.map_append, List.sum_append, ← ih]
    by_cases heq : k = key r
    · rw [if_pos heq, ← heq, List.filter_cons_of_pos (by simp [heq])]
      simp
    · rw [if_neg heq, List.filter_cons_of_neg (by simpa using Ne.symm heq)]
      simp

theorem isSome_get?_totals (rs : List ρ) (k : κ) :
    ((totals less key weight rs).get? k).isSome ↔ k ∈ rs.map key := by
  induction rs using List.reverseRecOn with
  | nil => exact ⟨nofun, nofun⟩
  | append_singleton rs r ih =>
    rw [totals_concat, get?_update, List.map_append, List.mem_append, ← ih]
    by_cases heq : k = key r
    · rw [if_pos heq]
      simp [heq]
    · rw [if_neg heq]
      simp [heq]

theorem get?_totals {rs : List ρ} {k : κ} {total : M} :
    (totals less key weight rs).get? k = some total ↔
      k ∈ rs.map key ∧ total = ((rs.filter fun r => key r = k).map weight).sum := by
  have hsum : ((totals less key weight rs).get? k).getD 0 = _ := getD_get?_totals rs k
  have hsome : ((totals less key weight rs).get? k).isSome ↔ _ := isSome_get?_totals rs k
  rw [← hsum, ← hsome]
  rcases (totals less key weight rs).get? k with _ | t
  · exact ⟨nofun, fun h => by cases h.1⟩
  · rw [Option.some_inj]
    exact ⟨fun heq => ⟨rfl, heq.symm⟩, fun h => h.2.symm⟩

theorem totals_perm {rs rs' : List ρ} (h : rs.Perm rs') :
    totals less key weight rs = totals less key weight rs' := by
  apply ext_get?
  intro k
  refine Option.ext fun total => ?_
  rw [get?_totals, get?_totals, ((h.filter _).map weight).sum_eq, (h.map key).mem_iff]

theorem sum_updateEntries (p : κ → Bool) (k : κ) (w : M) (entries : List (κ × M)) :
    (((updateEntries less k 0 (· + w) entries).filter fun e => p e.1).map Prod.snd).sum =
      ((entries.filter fun e => p e.1).map Prod.snd).sum + if p k then w else 0 := by
  induction entries with
  | nil =>
    rw [updateEntries, List.filter_cons]
    split <;> simp
  | cons e entries ih =>
    rw [updateEntries]
    split
    · rw [List.filter_cons]
      split
      · rw [List.map_cons, List.sum_cons, zero_add, add_comm]
      · rw [add_zero]
    split
    · rw [List.filter_cons, List.filter_cons]
      split
      · rw [List.map_cons, List.sum_cons, ih, List.map_cons, List.sum_cons, add_assoc]
      · exact ih
    · rename_i hnot hnot'
      have hkey : e.1 = k := by
        by_contra hne
        have htotal : less e.1 k = true ∨ less k e.1 = true := StrictLess.total hne
        rcases htotal with hlt | hlt
        · exact hnot' hlt
        · exact hnot hlt
      rw [List.filter_cons, List.filter_cons, hkey]
      split
      · rw [List.map_cons, List.sum_cons, List.map_cons, List.sum_cons, add_right_comm]
      · rw [add_zero]

theorem sum_totals (p : κ → Bool) (rs : List ρ) :
    (((totals less key weight rs).entries.filter fun e => p e.1).map Prod.snd).sum =
      ((rs.filter fun r => p (key r)).map weight).sum := by
  induction rs using List.reverseRecOn with
  | nil => rfl
  | append_singleton rs r ih =>
    rw [totals_concat, update, sum_updateEntries, ih, List.filter_append, List.map_append,
      List.sum_append, List.filter_cons, List.filter_nil]
    split <;> simp

variable {κ' : Type*} [DecidableEq κ'] {less' : κ' → κ' → Bool} [StrictLess less']

theorem mem_keys_totals {rs : List ρ} {k : κ} :
    k ∈ (totals less key weight rs).entries.map Prod.fst ↔ k ∈ rs.map key := by
  constructor
  · intro hmem
    obtain ⟨e, he, rfl⟩ := List.mem_map.mp hmem
    exact (get?_totals.mp (get?_eq_some_iff.mpr he)).1
  · intro hmem
    have hget : (totals less key weight rs).get? k =
        some ((rs.filter fun r => key r = k).map weight).sum := get?_totals.mpr ⟨hmem, rfl⟩
    exact List.mem_map.mpr ⟨_, get?_eq_some_iff.mp hget, rfl⟩

/-- Totals of totals, under coarser keys and of some of the keys only, are the totals of the records
with these keys. -/
theorem totals_totals (p : κ → Bool) (g : κ → κ') (rs : List ρ) :
    totals less' (fun e : κ × M => g e.1) Prod.snd
        ((totals less key weight rs).entries.filter fun e => p e.1) =
      totals less' (fun r => g (key r)) weight (rs.filter fun r => p (key r)) := by
  apply ext_get?
  intro k'
  refine Option.ext fun total => ?_
  rw [get?_totals, get?_totals, List.filter_filter, List.filter_filter,
    sum_totals fun k => decide (g k = k') && p k]
  refine and_congr_left fun _ => ?_
  simp only [List.mem_map, List.mem_filter]
  constructor
  · rintro ⟨e, ⟨he, hp⟩, rfl⟩
    obtain ⟨r, hr, hkey⟩ := List.mem_map.mp (mem_keys_totals.mp (List.mem_map_of_mem he))
    exact ⟨r, ⟨hr, hkey ▸ hp⟩, by rw [hkey]⟩
  · rintro ⟨r, ⟨hr, hp⟩, rfl⟩
    have hmem : key r ∈ (totals less key weight rs).entries.map Prod.fst :=
      mem_keys_totals.mpr (List.mem_map_of_mem hr)
    obtain ⟨e, he, hkey⟩ := List.mem_map.mp hmem
    exact ⟨e, ⟨he, hkey ▸ hp⟩, by rw [hkey]⟩

end totals

end OrderedMap

end Mozkey.Lib
