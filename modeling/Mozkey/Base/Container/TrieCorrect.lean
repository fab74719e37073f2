import Mozkey.Base.Container.Trie
import Mozkey.Lib.KeyedList

/-! The trie as a finite map from keys to data, and which deletions remove more than their key. -/

namespace Mozkey.Base

open Storage Lib

namespace Trie

variable {α : Type} {t u : Trie α} {v : α} {c c' : Nat} {ch : Char} {k q : List Char}

def get : Trie α → List Char → Option α
  | t, [] => t.data
  | t, ch :: cs => (t.find ch.toNat).bind fun sub => get sub cs

theorem firstChar_utf8 : firstChar (utf8 (ch :: k)) = (ch.toNat, utf8 k) := by
  rw [firstChar, utf8_cons, splitFirstChar32_utf8, Option.getD_some]

theorem utf8_cons_ne_nil : utf8 (ch :: k) ≠ [] := by
  rw [utf8_cons]
  exact List.append_ne_nil_of_left_ne_nil String.utf8EncodeChar_ne_nil _

theorem lookUp_eq (t : Trie α) (k : List Char) : lookUp (utf8 k) t = t.get k := by
  induction k generalizing t with
  | nil => rw [lookUp, if_pos (show utf8 [] = [] from rfl), get]
  | cons ch k ih =>
    rw [lookUp, if_neg utf8_cons_ne_nil, firstChar_utf8, get]
    cases hfind : t.find ch.toNat with
    | none => rfl
    | some sub => exact ih sub

/-- The subtries have different first characters, and each has data in it. -/
inductive WF : Trie α → Prop where
  | node {trie data} (nodup : (trie.map Prod.fst).Nodup)
    (chars : ∀ x ∈ trie, ∃ ch : Char, x.1 = ch.toNat)
    (live : ∀ x ∈ trie, ∃ k, (x.2.get k).isSome) (wf : ∀ x ∈ trie, WF x.2) :
    WF (.node trie data)

section nodes

theorem WF.nodup (h : WF t) : (t.subTries.map Prod.fst).Nodup := by
  cases h with
  | node nodup => exact nodup

theorem WF.chars (h : WF t) : ∀ x ∈ t.subTries, ∃ ch : Char, x.1 = ch.toNat := by
  cases h with
  | node _ chars => exact chars

theorem WF.live (h : WF t) : ∀ x ∈ t.subTries, ∃ k, (x.2.get k).isSome := by
  cases h with
  | node _ _ live => exact live

theorem WF.wf (h : WF t) : ∀ x ∈ t.subTries, WF x.2 := by
  cases h with
  | node _ _ _ wf => exact wf

theorem WF.of_subTries (h : WF t) {d : Option α} : WF (.node t.subTries d) :=
  .node h.nodup h.chars h.live h.wf

theorem wf_empty : WF (empty : Trie α) :=
  .node List.nodup_nil (fun _ h => (List.not_mem_nil h).elim)
    (fun _ h => (List.not_mem_nil h).elim) fun _ h => (List.not_mem_nil h).elim

theorem get_empty (k : List Char) : (empty : Trie α).get k = none := by
  cases k <;> rfl

theorem mem_of_find (h : t.find c = some u) : (c, u) ∈ t.subTries := by
  obtain ⟨x, hx, rfl⟩ := Option.map_eq_some_iff.mp h
  have hc := @List.find?_some _ (fun x : Nat × Trie α => decide (x.1 = c)) _ _ hx
  obtain rfl : x.1 = c := of_decide_eq_true hc
  exact List.mem_of_find?_eq_some hx

theorem WF.find_of_mem (h : WF t) (hmem : (c, u) ∈ t.subTries) : t.find c = some u := by
  rw [find, (find?_eq_some_iff_mem (f := Prod.fst) (a := (c, u)) h.nodup).mpr ⟨hmem, rfl⟩]
  rfl

theorem get_of_find (h : t.find ch.toNat = some u) (k : List Char) :
    t.get (ch :: k) = u.get k := by
  rw [get, h]
  rfl

theorem data_setSubTrie : (t.setSubTrie c u).data = t.data := by
  rw [setSubTrie]
  split <;> rfl

theorem find_setSubTrie : (t.setSubTrie c u).find c' = if c' = c then some u else t.find c' := by
  rw [setSubTrie]
  split
  · rename_i hsome
    have hreplace := find?_map_replace (f := Prod.fst) (a := (c, u)) (k := c') rfl t.subTries
    rw [find]
    refine (congrArg (Option.map Prod.snd) hreplace).trans ?_
    split
    · rw [find, Option.isSome_map] at hsome
      obtain ⟨x, hx⟩ := Option.isSome_iff_exists.mp hsome
      rw [hx]
      rfl
    · rfl
  · rename_i hnone
    have hnone' : t.subTries.find? (fun x => x.1 = c) = none := by
      rwa [find, Option.isSome_map, Bool.not_eq_true, Option.isSome_eq_false_iff,
        Option.isNone_iff_eq_none] at hnone
    rw [find, find]
    show (List.find? _ (t.subTries ++ [(c, u)])).map Prod.snd = _
    rw [List.find?_append, find?_cons_key, List.find?_nil]
    by_cases hc : c' = c
    · rw [if_pos hc, if_pos hc.symm, hc, hnone']
      rfl
    · rw [if_neg hc, if_neg (Ne.symm hc), Option.or_none]

theorem find_eraseSubTrie : (t.eraseSubTrie c).find c' = if c' = c then none else t.find c' := by
  have hfilter := find?_filter_ne (f := Prod.fst) (k := c') t.subTries c
  rw [find, eraseSubTrie]
  refine (congrArg (Option.map Prod.snd) hfilter).trans ?_
  split <;> rfl

theorem mem_setSubTrie {x : Nat × Trie α} (h : x ∈ (t.setSubTrie c u).subTries) :
    x = (c, u) ∨ x ∈ t.subTries := by
  rw [setSubTrie] at h
  split at h
  · obtain ⟨y, hy, rfl⟩ := List.mem_map.mp h
    split
    · exact Or.inl rfl
    · exact Or.inr hy
  · rcases List.mem_append.mp h with h | h
    · exact Or.inr h
    · exact Or.inl (List.mem_singleton.mp h)

theorem WF.setSubTrie (h : WF t) (hu : WF u) (hlive : ∃ k, (u.get k).isSome) :
    WF (t.setSubTrie ch.toNat u) := by
  have hmem := fun x => @mem_setSubTrie α t u ch.toNat x
  have hnodup : ((t.setSubTrie ch.toNat u).subTries.map Prod.fst).Nodup := by
    rw [Trie.setSubTrie]
    split
    · have hkeys : (t.subTries.map fun x => if x.1 = ch.toNat then (ch.toNat, u) else x).map
          Prod.fst = t.subTries.map Prod.fst := by
        rw [List.map_map]
        refine List.map_congr_left fun x _ => ?_
        rw [Function.comp_apply]
        split
        · rename_i hx
          exact hx.symm
        · rfl
      show (List.map Prod.fst (t.subTries.map _)).Nodup
      rw [hkeys]
      exact h.nodup
    · rename_i hnone
      show (List.map Prod.fst (t.subTries ++ [_])).Nodup
      rw [List.map_append, List.map_singleton]
      refine (List.perm_append_singleton _ _).nodup_iff.mpr (List.nodup_cons.mpr ⟨fun hin => ?_,
        h.nodup⟩)
      obtain ⟨⟨c, w⟩, hx, hc⟩ := List.mem_map.mp hin
      obtain rfl : c = ch.toNat := hc
      rw [h.find_of_mem hx] at hnone
      exact hnone rfl
  cases hnew : t.setSubTrie ch.toNat u with
  | node trie data =>
    rw [hnew] at hmem hnodup
    refine .node hnodup (fun x hx => ?_) (fun x hx => ?_) fun x hx => ?_
    · rcases hmem x hx with rfl | hx
      · exact ⟨ch, rfl⟩
      · exact h.chars x hx
    · rcases hmem x hx with rfl | hx
      · exact hlive
      · exact h.live x hx
    · rcases hmem x hx with rfl | hx
      · exact hu
      · exact h.wf x hx

theorem WF.eraseSubTrie (h : WF t) (c : Nat) : WF (t.eraseSubTrie c) := by
  have hsub : ∀ x ∈ t.subTries.filter (fun x => x.1 ≠ c), x ∈ t.subTries := fun x hx =>
    (List.mem_filter.mp hx).1
  exact .node (h.nodup.sublist (List.filter_sublist.map Prod.fst))
    (fun x hx => h.chars x (hsub x hx)) (fun x hx => h.live x (hsub x hx))
    fun x hx => h.wf x (hsub x hx)

theorem get_setSubTrie (t u : Trie α) (ch : Char) (q : List Char) :
    (t.setSubTrie ch.toNat u).get q =
      match q with
      | [] => t.data
      | ch' :: q => if ch' = ch then u.get q else t.get (ch' :: q) := by
  cases q with
  | nil => exact data_setSubTrie
  | cons ch' q =>
    rw [get, find_setSubTrie]
    by_cases hch : ch' = ch
    · rw [if_pos (congrArg Char.toNat hch)]
      show u.get q = if ch' = ch then u.get q else t.get (ch' :: q)
      rw [if_pos hch]
    · rw [if_neg fun heq => hch (Char.toNat_inj.mp heq)]
      show t.get (ch' :: q) = if ch' = ch then u.get q else t.get (ch' :: q)
      rw [if_neg hch]

theorem get_eraseSubTrie (t : Trie α) (ch : Char) (q : List Char) :
    (t.eraseSubTrie ch.toNat).get q =
      match q with
      | [] => t.data
      | ch' :: q => if ch' = ch then none else t.get (ch' :: q) := by
  cases q with
  | nil => rfl
  | cons ch' q =>
    rw [get, find_eraseSubTrie]
    by_cases hch : ch' = ch
    · rw [if_pos (congrArg Char.toNat hch)]
      show none = if ch' = ch then none else t.get (ch' :: q)
      rw [if_pos hch]
    · rw [if_neg fun heq => hch (Char.toNat_inj.mp heq)]
      show t.get (ch' :: q) = if ch' = ch then none else t.get (ch' :: q)
      rw [if_neg hch]

theorem addEntry_spec (h : WF t) (k : List Char) (v : α) :
    WF (t.addEntry (utf8 k) v) ∧
      ∀ q, (t.addEntry (utf8 k) v).get q = if q = k then some v else t.get q := by
  induction k generalizing t with
  | nil =>
    rw [addEntry, if_pos (show utf8 [] = [] from rfl)]
    refine ⟨h.of_subTries, fun q => ?_⟩
    cases q with
    | nil => rfl
    | cons c q =>
      rw [if_neg (List.cons_ne_nil _ _)]
      rfl
  | cons ch k ih =>
    rw [addEntry, if_neg utf8_cons_ne_nil, firstChar_utf8]
    obtain ⟨sub, hsub⟩ : ∃ sub, sub = (t.find ch.toNat).getD empty := ⟨_, rfl⟩
    have hwf : WF sub := by
      cases hfind : t.find ch.toNat with
      | none =>
        rw [hsub, hfind]
        exact wf_empty
      | some u =>
        rw [hsub, hfind]
        exact h.wf _ (mem_of_find hfind)
    have hget : ∀ q, t.get (ch :: q) = sub.get q := by
      intro q
      rw [hsub, get]
      cases t.find ch.toNat with
      | none => exact (get_empty q).symm
      | some u => rfl
    obtain ⟨hnew, hnewGet⟩ := ih hwf
    show WF (t.setSubTrie ch.toNat (addEntry (utf8 k) v ((t.find ch.toNat).getD empty))) ∧ _
    rw [← hsub]
    refine ⟨h.setSubTrie hnew ⟨k, ?_⟩, fun q => ?_⟩
    · rw [hnewGet, if_pos rfl]
      rfl
    show (t.setSubTrie ch.toNat (addEntry (utf8 k) v sub)).get q = _
    rw [get_setSubTrie]
    cases q with
    | nil => rfl
    | cons c q =>
      show (if c = ch then (addEntry (utf8 k) v sub).get q else t.get (c :: q)) = _
      by_cases hc : c = ch
      · subst hc
        rw [if_pos rfl, hnewGet, hget]
        by_cases hq : q = k
        · rw [if_pos hq, if_pos (congrArg (List.cons c) hq)]
        · rw [if_neg hq, if_neg fun heq => hq (List.cons.inj heq).2]
      · rw [if_neg hc, if_neg fun heq => hc (List.cons.inj heq).1]

end nodes

section deleteEntry

theorem WF.exists_present (h : WF t) : t.subTries ≠ [] ↔ ∃ r, r ≠ [] ∧ (t.get r).isSome := by
  constructor
  · intro hne
    obtain ⟨⟨c, u⟩, hmem⟩ := List.exists_mem_of_ne_nil _ hne
    obtain ⟨ch, hc : c = ch.toNat⟩ := h.chars _ hmem
    subst hc
    obtain ⟨r, hr⟩ := h.live _ hmem
    refine ⟨ch :: r, List.cons_ne_nil _ _, ?_⟩
    rwa [get_of_find (h.find_of_mem hmem)]
  · rintro ⟨r, hne, hr⟩ hnil
    cases r with
    | nil => exact hne rfl
    | cons ch r =>
      rw [get, find, hnil] at hr
      cases hr

theorem deleteEntry_fst (h : WF t) (k : List Char) : (t.deleteEntry (utf8 k)).1 = true ↔
    (k ≠ [] → (t.get k).isSome) ∧ ∀ r, (t.get r).isSome → r <+: k := by
  induction k generalizing t with
  | nil =>
    rw [deleteEntry, if_pos (show utf8 [] = [] from rfl)]
    by_cases hnil : t.subTries = []
    · rw [if_pos hnil]
      refine ⟨fun _ => ⟨fun hne => (hne rfl).elim, fun r hr => ?_⟩, fun _ => rfl⟩
      by_contra hprefix
      refine h.exists_present.mpr ⟨r, ?_, hr⟩ hnil
      rintro rfl
      exact hprefix List.prefix_rfl
    · rw [if_neg hnil]
      refine ⟨fun hfalse => (Bool.false_ne_true hfalse).elim, fun hall => ?_⟩
      obtain ⟨r, hne, hr⟩ := h.exists_present.mp hnil
      exact (hne (List.prefix_nil.mp (hall.2 r hr))).elim
  | cons ch k ih =>
    rw [deleteEntry, if_neg utf8_cons_ne_nil, firstChar_utf8]
    cases hfind : t.find ch.toNat with
    | none =>
      refine ⟨fun hfalse => (Bool.false_ne_true hfalse).elim, fun hall => ?_⟩
      have hk := hall.1 (List.cons_ne_nil _ _)
      rw [get, hfind] at hk
      cases hk
    | some sub =>
      have hmem := mem_of_find hfind
      have hsub := ih (h.wf _ hmem)
      have hget := get_of_find hfind
      show (if (sub.deleteEntry (utf8 k)).1 then
        ((t.eraseSubTrie ch.toNat).subTries.isEmpty, t.eraseSubTrie ch.toNat)
        else (false, t.setSubTrie ch.toNat (sub.deleteEntry (utf8 k)).2)).1 = true ↔ _
      constructor
      · intro htrue
        split at htrue
        · rename_i hdeleted
          obtain ⟨hk, hall⟩ := hsub.mp hdeleted
          refine ⟨fun _ => ?_, fun r hr => ?_⟩
          · rw [hget]
            cases k with
            | nil =>
              obtain ⟨r, hr⟩ := h.live _ hmem
              rwa [← List.prefix_nil.mp (hall r hr)]
            | cons c k => exact hk (List.cons_ne_nil _ _)
          · cases r with
            | nil => exact List.nil_prefix
            | cons c r =>
              by_cases hc : c = ch
              · subst hc
                rw [hget] at hr
                exact List.cons_prefix_cons.mpr ⟨rfl, hall r hr⟩
              · have hother : ((t.eraseSubTrie ch.toNat).get (c :: r)).isSome := by
                  rw [get_eraseSubTrie]
                  show (if c = ch then none else t.get (c :: r)).isSome
                  rwa [if_neg hc]
                refine ((h.eraseSubTrie ch.toNat).exists_present.mpr
                  ⟨_, List.cons_ne_nil _ _, hother⟩ ?_).elim
                exact List.isEmpty_iff.mp htrue
        · cases htrue
      · rintro ⟨hk, hall⟩
        rw [if_pos]
        · refine List.isEmpty_iff.mpr (not_not.mp fun hne => ?_)
          obtain ⟨r, hr, hget'⟩ := (h.eraseSubTrie ch.toNat).exists_present.mp hne
          rw [get_eraseSubTrie] at hget'
          cases r with
          | nil => exact hr rfl
          | cons c r =>
            have hif : (if c = ch then none else t.get (c :: r)).isSome := hget'
            by_cases hc : c = ch
            · rw [if_pos hc] at hif
              cases hif
            · rw [if_neg hc] at hif
              exact hc (List.cons_prefix_cons.mp (hall _ hif)).1
        · refine hsub.mpr ⟨fun _ => ?_, fun r hr => ?_⟩
          · rw [← hget]
            exact hk (List.cons_ne_nil _ _)
          · rw [← hget] at hr
            exact (List.cons_prefix_cons.mp (hall _ hr)).2

/-- What a deletion removes is the key alone: a present key that is a proper prefix of it has, as
the node that is cut off has not, some key that is no prefix of it; and the empty key is not alone
in the trie. -/
def DeleteOk (m : List Char → Option α) (k : List Char) : Prop :=
  (m k).isSome → (k = [] → ∃ r, r ≠ [] ∧ (m r).isSome) ∧
    ∀ q, q ≠ [] → (m q).isSome → q <+: k → q ≠ k → ∃ r, (m r).isSome ∧ q <+: r ∧ ¬ r <+: k

theorem deleteEntry_spec (h : WF t) {k : List Char} (hok : DeleteOk t.get k) :
    WF (t.deleteEntry (utf8 k)).2 ∧
      ∀ q, (t.deleteEntry (utf8 k)).2.get q = if q = k then none else t.get q := by
  induction k generalizing t with
  | nil =>
    rw [deleteEntry, if_pos (show utf8 [] = [] from rfl)]
    by_cases hnil : t.subTries = []
    · rw [if_pos hnil]
      refine ⟨h, fun q => ?_⟩
      by_cases hq : q = []
      · rw [if_pos hq, hq]
        refine Option.not_isSome_iff_eq_none.mp fun hsome => ?_
        exact h.exists_present.mpr ((hok hsome).1 rfl) hnil
      · rw [if_neg hq]
    · rw [if_neg hnil]
      refine ⟨h.of_subTries, fun q => ?_⟩
      cases q with
      | nil => rfl
      | cons c q =>
        rw [if_neg (List.cons_ne_nil _ _)]
        rfl
  | cons ch k ih =>
    rw [deleteEntry, if_neg utf8_cons_ne_nil, firstChar_utf8]
    cases hfind : t.find ch.toNat with
    | none =>
      refine ⟨h, fun q => ?_⟩
      show t.get q = _
      split
      · rename_i hq
        rw [hq, get, hfind]
        rfl
      · rfl
    | some sub =>
      have hmem := mem_of_find hfind
      have hfst := deleteEntry_fst (h.wf _ hmem) k
      have hget := get_of_find hfind
      show WF (if (sub.deleteEntry (utf8 k)).1 then
          ((t.eraseSubTrie ch.toNat).subTries.isEmpty, t.eraseSubTrie ch.toNat)
          else (false, t.setSubTrie ch.toNat (sub.deleteEntry (utf8 k)).2)).2 ∧
        ∀ q, (if (sub.deleteEntry (utf8 k)).1 then
          ((t.eraseSubTrie ch.toNat).subTries.isEmpty, t.eraseSubTrie ch.toNat)
          else (false, t.setSubTrie ch.toNat (sub.deleteEntry (utf8 k)).2)).2.get q = _
      split
      · -- the subtrie is cut off: nothing but the key is in it
        rename_i hdeleted
        obtain ⟨hk, hall⟩ := hfst.mp hdeleted
        have hsome : (t.get (ch :: k)).isSome := by
          obtain ⟨r, hr⟩ := h.live _ hmem
          rw [hget]
          by_cases hnil : k = []
          · rw [hnil] at hall ⊢
            rwa [← List.prefix_nil.mp (hall r hr)]
          · exact hk hnil
        refine ⟨h.eraseSubTrie _, fun q => ?_⟩
        show (t.eraseSubTrie ch.toNat).get q = _
        rw [get_eraseSubTrie]
        cases q with
        | nil => rfl
        | cons c q =>
          show (if c = ch then none else t.get (c :: q)) = _
          by_cases hc : c = ch
          · subst hc
            rw [if_pos rfl]
            split
            · rfl
            · rename_i hne
              refine (Option.not_isSome_iff_eq_none.mp fun hq => ?_).symm
              have hprefix : c :: q <+: c :: k :=
                List.cons_prefix_cons.mpr ⟨rfl, hall q (by rwa [← hget])⟩
              obtain ⟨r, hr, hqr, hrk⟩ := (hok hsome).2 _ (List.cons_ne_nil _ _) hq hprefix hne
              obtain ⟨s, rfl⟩ := hqr
              refine hrk (List.cons_prefix_cons.mpr ⟨rfl, hall _ ?_⟩)
              rwa [← hget]
          · rw [if_neg hc, if_neg fun heq => hc (List.cons.inj heq).1]
      · rename_i hnot
        have hne : k = [] → ∃ r, r ≠ [] ∧ (sub.get r).isSome := by
          rintro rfl
          by_contra hall
          refine hnot (hfst.mpr ⟨fun hne => (hne rfl).elim, fun r hr => ?_⟩)
          by_cases hr' : r = []
          · rw [hr']
          · exact (hall ⟨r, hr', hr⟩).elim
        have hok' : DeleteOk sub.get k := by
          refine fun hsome => ⟨hne, fun q hq hqsome hqk hqne => ?_⟩
          rw [← hget] at hsome hqsome
          obtain ⟨r, hr, hqr, hrk⟩ := (hok hsome).2 (ch :: q) (List.cons_ne_nil _ _) hqsome
            (List.cons_prefix_cons.mpr ⟨rfl, hqk⟩) fun heq => hqne (List.cons.inj heq).2
          obtain ⟨s, rfl⟩ := hqr
          refine ⟨q ++ s, ?_, List.prefix_append _ _, fun hprefix => ?_⟩
          · rw [← hget]
            exact hr
          · exact hrk (List.cons_prefix_cons.mpr ⟨rfl, hprefix⟩)
        obtain ⟨hnew, hnewGet⟩ := ih (h.wf _ hmem) hok'
        have hlive : ∃ r, ((sub.deleteEntry (utf8 k)).2.get r).isSome := by
          by_contra hdead
          have hall : ∀ r, (sub.get r).isSome → r = k := by
            intro r hr
            by_contra hrk
            refine hdead ⟨r, ?_⟩
            rwa [hnewGet, if_neg hrk]
          obtain ⟨r, hr⟩ := h.live _ hmem
          refine hnot (hfst.mpr ⟨fun _ => ?_, fun r hr => hall r hr ▸ List.prefix_rfl⟩)
          rwa [← hall r hr]
        refine ⟨h.setSubTrie hnew hlive, fun q => ?_⟩
        show (t.setSubTrie ch.toNat (sub.deleteEntry (utf8 k)).2).get q = _
        rw [get_setSubTrie]
        cases q with
        | nil => rfl
        | cons c q =>
          show (if c = ch then (sub.deleteEntry (utf8 k)).2.get q else t.get (c :: q)) = _
          by_cases hc : c = ch
          · subst hc
            rw [if_pos rfl, hnewGet, hget]
            by_cases hq : q = k
            · rw [if_pos hq, if_pos (congrArg (List.cons c) hq)]
            · rw [if_neg hq, if_neg fun heq => hq (List.cons.inj heq).2]
          · rw [if_neg hc, if_neg fun heq => hc (List.cons.inj heq).1]

theorem deleteEntry_loses (h : WF t) {k q : List Char} (hk : (t.get k).isSome) (hq : q ≠ [])
    (hqk : q <+: k) (hne : q ≠ k) (hall : ∀ r, (t.get r).isSome → q <+: r → r <+: k) :
    (t.deleteEntry (utf8 k)).2.get q = none := by
  induction k generalizing t q with
  | nil => exact (hq (List.prefix_nil.mp hqk)).elim
  | cons ch k ih =>
    obtain ⟨c, q, rfl⟩ := List.exists_cons_of_ne_nil hq
    obtain ⟨rfl, hqk'⟩ := List.cons_prefix_cons.mp hqk
    rw [deleteEntry, if_neg utf8_cons_ne_nil, firstChar_utf8]
    cases hfind : t.find c.toNat with
    | none =>
      rw [get, hfind] at hk
      cases hk
    | some sub =>
      have hwf := h.wf _ (mem_of_find hfind)
      have hget := get_of_find hfind
      rw [hget] at hk
      have hall' : ∀ r, (sub.get r).isSome → q <+: r → r <+: k := fun r hr hqr =>
        (List.cons_prefix_cons.mp (hall (c :: r) ((hget r).symm ▸ hr)
          (List.cons_prefix_cons.mpr ⟨rfl, hqr⟩))).2
      show (if (sub.deleteEntry (utf8 k)).1 then
        ((t.eraseSubTrie c.toNat).subTries.isEmpty, t.eraseSubTrie c.toNat)
        else (false, t.setSubTrie c.toNat (sub.deleteEntry (utf8 k)).2)).2.get (c :: q) = none
      split
      · show (t.eraseSubTrie c.toNat).get (c :: q) = none
        rw [get_eraseSubTrie]
        exact if_pos rfl
      · rename_i hnot
        show (t.setSubTrie c.toNat (sub.deleteEntry (utf8 k)).2).get (c :: q) = none
        rw [get_setSubTrie]
        refine (if_pos rfl).trans (ih hwf hk ?_ hqk' (fun heq => hne (heq ▸ rfl)) hall')
        rintro rfl
        exact hnot ((deleteEntry_fst hwf k).mpr ⟨fun _ => hk, fun r hr =>
          hall' r hr List.nil_prefix⟩)

theorem deleteEntry_spec_iff (h : WF t) {k : List Char} :
    (∀ q, (t.deleteEntry (utf8 k)).2.get q = if q = k then none else t.get q) ↔
      DeleteOk t.get k := by
  refine ⟨fun hget hk => ⟨fun hnil => ?_, fun q hq hqsome hqk hne => ?_⟩,
    fun hok => (deleteEntry_spec h hok).2⟩
  · subst hnil
    refine h.exists_present.mp fun hempty => ?_
    have hnone := hget []
    rw [deleteEntry, if_pos (show utf8 [] = [] from rfl), if_pos hempty, if_pos rfl] at hnone
    rw [hnone] at hk
    cases hk
  · by_contra hall
    have hlost := deleteEntry_loses h hk hq hqk hne fun r hr hqr => by
      by_contra hrk
      exact hall ⟨r, hr, hqr, hrk⟩
    rw [hget, if_neg hne] at hlost
    rw [hlost] at hqsome
    cases hqsome

end deleteEntry

section lookUps

theorem ownMatch_spec (t : Trie α) (k : List Char) (d : Option α)
    (hnone : ∀ q, q ≠ [] → (t.get q).isSome → ¬ q <+: k) :
    (t.ownMatch d = (false, d, 0) ∧ ∀ q, (t.get q).isSome → ¬ q <+: k) ∨
      ∃ q, t.ownMatch d = (true, t.get q, (utf8 q).length) ∧ (t.get q).isSome ∧
        q <+: k ∧ ∀ r, (t.get r).isSome → r <+: k → r <+: q := by
  rw [ownMatch]
  by_cases hdata : t.data.isSome
  · rw [if_pos hdata]
    refine Or.inr ⟨[], rfl, hdata, List.nil_prefix, fun r hr hrk => ?_⟩
    by_contra hne
    exact hnone r (fun hr' => hne (hr' ▸ List.prefix_rfl)) hr hrk
  · rw [if_neg hdata]
    refine Or.inl ⟨rfl, fun q hq => ?_⟩
    by_cases hnil : q = []
    · subst hnil
      exact (hdata hq).elim
    · exact hnone q hnil hq

theorem longestMatch_of_not_found (hfind : t.find ch.toNat = some u) {d : Option α}
    (hmatch : longestMatch (utf8 k) (if t.data.isSome then t.data else d) u =
      (false, if t.data.isSome then t.data else d, 0)) :
    longestMatch (utf8 (ch :: k)) d t = t.ownMatch d := by
  rw [longestMatch, if_neg utf8_cons_ne_nil, firstChar_utf8, hfind]
  simp only [hmatch, Bool.false_eq_true, if_false]
  rw [ownMatch]
  by_cases hdata : t.data.isSome
  · rw [if_pos hdata, if_pos hdata, hdata]
  · rw [if_neg hdata, if_neg hdata, Bool.eq_false_iff.mpr hdata]

theorem longestMatch_of_found (hfind : t.find ch.toNat = some u) {d r : Option α} {n : Nat}
    (hmatch : longestMatch (utf8 k) (if t.data.isSome then t.data else d) u = (true, r, n)) :
    longestMatch (utf8 (ch :: k)) d t = (true, r, (String.utf8EncodeChar ch).length + n) := by
  rw [longestMatch, if_neg utf8_cons_ne_nil, firstChar_utf8, hfind]
  simp only [hmatch, if_true]
  rw [utf8_cons, List.length_append, Nat.add_sub_cancel, Nat.add_comm]

theorem longestMatch_spec (t : Trie α) (k : List Char) (d : Option α) :
    (longestMatch (utf8 k) d t = (false, d, 0) ∧ ∀ q, (t.get q).isSome → ¬ q <+: k) ∨
      ∃ q, longestMatch (utf8 k) d t = (true, t.get q, (utf8 q).length) ∧ (t.get q).isSome ∧
        q <+: k ∧ ∀ r, (t.get r).isSome → r <+: k → r <+: q := by
  induction k generalizing t d with
  | nil =>
    rw [longestMatch, if_pos (show utf8 [] = [] from rfl)]
    exact t.ownMatch_spec [] d fun q hne _ hprefix => hne (List.prefix_nil.mp hprefix)
  | cons ch k ih =>
    cases hfind : t.find ch.toNat with
    | none =>
      rw [longestMatch, if_neg utf8_cons_ne_nil, firstChar_utf8, hfind]
      refine t.ownMatch_spec (ch :: k) d fun q hne hq hprefix => ?_
      cases q with
      | nil => exact hne rfl
      | cons c q =>
        obtain ⟨rfl, -⟩ := List.cons_prefix_cons.mp hprefix
        rw [get, hfind] at hq
        cases hq
    | some sub =>
      have hget := get_of_find hfind
      rcases ih sub (if t.data.isSome then t.data else d) with
        ⟨hmatch, hnone⟩ | ⟨q, hmatch, hq, hqk, hlongest⟩
      · rw [longestMatch_of_not_found hfind hmatch]
        refine t.ownMatch_spec (ch :: k) d fun q hne hq hprefix => ?_
        cases q with
        | nil => exact hne rfl
        | cons c q =>
          obtain ⟨rfl, hprefix'⟩ := List.cons_prefix_cons.mp hprefix
          exact hnone q (hget q ▸ hq) hprefix'
      · rw [longestMatch_of_found hfind hmatch]
        refine Or.inr ⟨ch :: q, ?_, (hget q).symm ▸ hq, List.cons_prefix_cons.mpr ⟨rfl, hqk⟩,
          fun r hr hrk => ?_⟩
        · rw [hget, utf8_cons, List.length_append]
        · cases r with
          | nil => exact List.nil_prefix
          | cons c r =>
            obtain ⟨rfl, hrk'⟩ := List.cons_prefix_cons.mp hrk
            exact List.cons_prefix_cons.mpr ⟨rfl, hlongest r (hget r ▸ hr) hrk'⟩

def descend : Trie α → List Char → Option (Trie α)
  | t, [] => some t
  | t, ch :: cs => (t.find ch.toNat).bind fun sub => descend sub cs

theorem descend_append (t : Trie α) (p q : List Char) :
    t.descend (p ++ q) = (t.descend p).bind fun u => u.descend q := by
  induction p generalizing t with
  | nil => rfl
  | cons ch p ih =>
    rw [List.cons_append, descend, descend, Option.bind_assoc]
    exact congrArg _ (funext fun u => ih u)

theorem get_eq_descend (t : Trie α) (k : List Char) : t.get k = (t.descend k).bind Trie.data := by
  induction k generalizing t with
  | nil => rfl
  | cons ch k ih =>
    rw [get, descend, Option.bind_assoc]
    exact congrArg _ (funext fun u => ih u)

theorem lookUpPrefix_spec (t : Trie α) (k : List Char) : ∃ q r u, k = q ++ r ∧
    t.descend q = some u ∧ (∀ ch r', r = ch :: r' → u.find ch.toNat = none) ∧
    lookUpPrefix (utf8 k) t = (u.data, (utf8 q).length, u.data.isNone || u.subTries.isEmpty) := by
  induction k generalizing t with
  | nil =>
    refine ⟨[], [], t, rfl, rfl, nofun, ?_⟩
    rw [lookUpPrefix, if_pos (show utf8 [] = [] from rfl)]
    rfl
  | cons ch k ih =>
    cases hfind : t.find ch.toNat with
    | none =>
      refine ⟨[], ch :: k, t, rfl, rfl, fun c r' hr => ?_, ?_⟩
      · rw [← (List.cons.inj hr).1, hfind]
      · rw [lookUpPrefix, if_neg utf8_cons_ne_nil, firstChar_utf8, hfind]
        rfl
    | some sub =>
      obtain ⟨q, r, u, rfl, hdescend, hstop, hlook⟩ := ih sub
      refine ⟨ch :: q, r, u, rfl, ?_, hstop, ?_⟩
      · rw [descend, hfind, Option.bind_some, hdescend]
      · rw [lookUpPrefix, if_neg utf8_cons_ne_nil, firstChar_utf8, hfind]
        simp only [hlook]
        rw [utf8_cons, List.length_append, utf8_cons, List.length_append, Nat.add_sub_cancel,
          Nat.add_comm]

theorem allSubData_spec {trie : List (Nat × Trie α)} (hnodup : (trie.map Prod.fst).Nodup)
    (hchars : ∀ x ∈ trie, ∃ ch : Char, x.1 = ch.toNat)
    (ih : ∀ x ∈ trie, ∃ keys : List (List Char), keys.Nodup ∧
      (∀ k, k ∈ keys ↔ (x.2.get k).isSome) ∧ x.2.allData.map some = keys.map x.2.get) :
    ∃ keys : List (List Char), keys.Nodup ∧
      (∀ k, k ∈ keys ↔ ((node trie none).get k).isSome) ∧
      (allSubData trie).map some = keys.map (node trie none).get := by
  induction trie with
  | nil =>
    refine ⟨[], List.nodup_nil, fun k => ⟨fun hk => (List.not_mem_nil hk).elim, fun hk => ?_⟩, rfl⟩
    cases k <;> cases hk
  | cons x trie ihTrie =>
    obtain ⟨c, u⟩ := x
    obtain ⟨ch, hch : c = ch.toNat⟩ := hchars _ List.mem_cons_self
    subst hch
    obtain ⟨hnotin, hnodup'⟩ := List.nodup_cons.mp hnodup
    obtain ⟨keys, hkeys, hmem, hdata⟩ := ihTrie hnodup'
      (fun x hx => hchars x (List.mem_cons_of_mem _ hx)) fun x hx => ih x (List.mem_cons_of_mem _ hx)
    obtain ⟨keys', hkeys', hmem', hdata'⟩ := ih _ List.mem_cons_self
    have hfirst : ∀ k, (node ((ch.toNat, u) :: trie) none).get (ch :: k) = u.get k := by
      intro k
      refine get_of_find ?_ k
      rw [find, subTries, find?_cons_key (f := Prod.fst), if_pos rfl]
      rfl
    have hrest : ∀ k ∈ keys, (node ((ch.toNat, u) :: trie) none).get k = (node trie none).get k ∧
        k ∉ keys'.map (List.cons ch) := by
      intro k hk
      cases k with
      | nil => exact ⟨rfl, by simp⟩
      | cons c k =>
        have hc : c ≠ ch := by
          rintro rfl
          have hsome := (hmem _).mp hk
          rw [get] at hsome
          cases hfind : (node trie none).find c.toNat with
          | none => rw [hfind] at hsome; cases hsome
          | some w => exact hnotin (List.mem_map.mpr ⟨_, mem_of_find hfind, rfl⟩)
        refine ⟨?_, fun hin => ?_⟩
        · rw [get, get, find, find, subTries, find?_cons_key (f := Prod.fst),
            if_neg fun heq => hc (Char.toNat_inj.mp heq).symm]
          rfl
        · obtain ⟨k', -, hk'⟩ := List.mem_map.mp hin
          exact hc (List.cons.inj hk').1.symm
    refine ⟨keys'.map (List.cons ch) ++ keys, ?_, fun k => ?_, ?_⟩
    · refine List.nodup_append.mpr ⟨hkeys'.map fun k k' heq => (List.cons.inj heq).2, hkeys, ?_⟩
      rintro k hk k' hk' rfl
      exact (hrest k hk').2 hk
    · rw [List.mem_append]
      constructor
      · rintro (hk | hk)
        · obtain ⟨k, hk', rfl⟩ := List.mem_map.mp hk
          rw [hfirst]
          exact (hmem' k).mp hk'
        · rw [(hrest k hk).1]
          exact (hmem k).mp hk
      · intro hk
        cases k with
        | nil => cases hk
        | cons c k =>
          by_cases hc : c = ch
          · subst hc
            rw [hfirst] at hk
            exact Or.inl (List.mem_map_of_mem ((hmem' k).mpr hk))
          · refine Or.inr ((hmem _).mpr ?_)
            rw [get, find, subTries, find?_cons_key (f := Prod.fst),
              if_neg fun heq => hc (Char.toNat_inj.mp heq).symm] at hk
            exact hk
    · rw [allSubData, List.map_append, List.map_append, hdata, hdata', List.map_map]
      congr 1
      · exact List.map_congr_left fun k _ => (hfirst k).symm
      · exact List.map_congr_left fun k hk => (hrest k hk).1.symm

theorem allData_spec (h : WF t) : ∃ keys : List (List Char), keys.Nodup ∧
    (∀ k, k ∈ keys ↔ (t.get k).isSome) ∧ t.allData.map some = keys.map t.get := by
  induction h with
  | @node trie data nodup chars live wf ih =>
    obtain ⟨keys, hkeys, hmem, hall⟩ := allSubData_spec nodup chars ih
    have hnil : [] ∉ keys := fun hin => by cases (hmem []).mp hin
    have hcons : ∀ k ∈ keys, (node trie none).get k = (node trie data).get k := by
      intro k hk
      cases k with
      | nil => exact (hnil hk).elim
      | cons c k => rfl
    rw [allData, List.map_append, hall, List.map_congr_left hcons]
    cases data with
    | none => exact ⟨keys, hkeys, hmem, rfl⟩
    | some d =>
      refine ⟨[] :: keys, List.nodup_cons.mpr ⟨hnil, hkeys⟩, fun k => ?_, rfl⟩
      cases k with
      | nil => exact ⟨fun _ => rfl, fun _ => List.mem_cons_self⟩
      | cons c k =>
        rw [List.mem_cons, hmem]
        exact ⟨fun hk => hk.resolve_left (List.cons_ne_nil _ _), Or.inr⟩

theorem lookUpPredictiveAll_spec (h : WF t) (p : List Char) :
    ∃ keys : List (List Char), keys.Nodup ∧ (∀ k, k ∈ keys ↔ p <+: k ∧ (t.get k).isSome) ∧
      (t.lookUpPredictiveAll (utf8 p)).map some = keys.map t.get := by
  induction p generalizing t with
  | nil =>
    rw [lookUpPredictiveAll, if_pos (show utf8 [] = [] from rfl)]
    obtain ⟨keys, hkeys, hmem, hall⟩ := allData_spec h
    exact ⟨keys, hkeys, fun k => by rw [hmem, and_iff_right List.nil_prefix], hall⟩
  | cons ch p ih =>
    rw [lookUpPredictiveAll, if_neg utf8_cons_ne_nil, firstChar_utf8]
    cases hfind : t.find ch.toNat with
    | none =>
      refine ⟨[], List.nodup_nil, fun k => ⟨fun hk => (List.not_mem_nil hk).elim, ?_⟩, rfl⟩
      rintro ⟨⟨s, rfl⟩, hk⟩
      rw [List.cons_append, get, hfind] at hk
      cases hk
    | some sub =>
      have hget := get_of_find hfind
      obtain ⟨keys, hkeys, hmem, hall⟩ := ih (h.wf _ (mem_of_find hfind))
      refine ⟨keys.map (List.cons ch), hkeys.map fun k k' heq => (List.cons.inj heq).2,
        fun k => ?_, ?_⟩
      · constructor
        · intro hk
          obtain ⟨k, hk', rfl⟩ := List.mem_map.mp hk
          rw [hget, List.cons_prefix_cons, and_iff_right rfl]
          exact (hmem k).mp hk'
        · rintro ⟨⟨s, rfl⟩, hk⟩
          refine List.mem_map_of_mem (f := List.cons ch) ((hmem (p ++ s)).mpr ⟨⟨s, rfl⟩, ?_⟩)
          rw [← hget]
          exact hk
      · rw [List.map_map]
        refine hall.trans (List.map_congr_left fun k _ => ?_)
        exact (hget k).symm

end lookUps

section runs

/-- The finite map of a run: what was last added, unless deleted since. -/
def entriesStep (m : List Char → Option α) : Op α → List Char → Option α
  | .addEntry key data => fun q => if q = key then some data else m q
  | .deleteEntry key => fun q => if q = key then none else m q

def entries (ops : List (Op α)) : List Char → Option α := ops.foldl entriesStep fun _ => none

/-- What every operation answers of a trie that stands for the map `m`. -/
structure Answers (t : Trie α) (m : List Char → Option α) : Prop where
  lookUp (key : List Char) : t.lookUp (utf8 key) = m key
  lookUpPredictiveAll (p : List Char) : ∃ keys : List (List Char), keys.Nodup ∧
    (∀ k, k ∈ keys ↔ p <+: k ∧ (m k).isSome) ∧
    (t.lookUpPredictiveAll (utf8 p)).map some = keys.map m
  longestMatch (key : List Char) (d : Option α) :
    (t.longestMatch (utf8 key) d = (false, d, 0) ∧ ∀ q, (m q).isSome → ¬ q <+: key) ∨
      ∃ q, t.longestMatch (utf8 key) d = (true, m q, (utf8 q).length) ∧ (m q).isSome ∧
        q <+: key ∧ ∀ r, (m r).isSome → r <+: key → r <+: q

theorem WF.answers (h : WF t) : Answers t t.get :=
  ⟨lookUp_eq t, lookUpPredictiveAll_spec h, longestMatch_spec t⟩

theorem step_spec (h : WF t) {op : Op α} (hok : ∀ key, op = .deleteEntry key → DeleteOk t.get key) :
    WF (t.step op) ∧ (t.step op).get = entriesStep t.get op := by
  cases op with
  | addEntry key data =>
    obtain ⟨hwf, hget⟩ := addEntry_spec h key data
    exact ⟨hwf, funext hget⟩
  | deleteEntry key =>
    obtain ⟨hwf, hget⟩ := deleteEntry_spec h (hok key rfl)
    exact ⟨hwf, funext hget⟩

theorem run_spec {ops : List (Op α)}
    (h : ∀ before key after, ops = before ++ .deleteEntry key :: after →
      DeleteOk (entries before) key) :
    WF (run ops) ∧ (run ops).get = entries ops := by
  induction ops using List.reverseRecOn with
  | nil => exact ⟨wf_empty, funext get_empty⟩
  | append_singleton ops op ih =>
    obtain ⟨hwf, hget⟩ := ih fun before key after hops =>
      h before key (after ++ [op]) (by rw [hops, List.append_assoc, List.cons_append])
    have hok : ∀ key, op = .deleteEntry key → DeleteOk (run ops).get key := by
      rintro key rfl
      rw [hget]
      exact h ops key [] rfl
    have hstep := step_spec hwf hok
    rw [hget] at hstep
    rw [run, entries, List.foldl_concat, List.foldl_concat]
    exact hstep

/-- A trie answers as the finite map of the changes made to it exactly as long as no deletion finds
the deleted key at the end of a branch that holds another key, or alone in the root. -/
theorem run_answers_iff (ops : List (Op α)) :
    (∀ before after, ops = before ++ after → Answers (run before) (entries before)) ↔
      ∀ before key after, ops = before ++ .deleteEntry key :: after →
        DeleteOk (entries before) key := by
  constructor
  · intro hall
    induction ops using List.reverseRecOn with
    | nil =>
      intro before key after h
      exact (List.append_ne_nil_of_right_ne_nil _ (List.cons_ne_nil _ _) h.symm).elim
    | append_singleton ops op ih =>
      have hops := ih fun before after h => hall before (after ++ [op]) (by
        rw [h, List.append_assoc])
      obtain ⟨hwf, hget⟩ := run_spec hops
      intro before key after h
      rcases List.eq_nil_or_concat after with rfl | ⟨after, op', rfl⟩
      · obtain ⟨rfl, hop⟩ := List.append_inj' h rfl
        obtain rfl : op = .deleteEntry key := List.singleton_inj.mp hop
        rw [← hget]
        refine (deleteEntry_spec_iff hwf).mp fun q => ?_
        have hlookUp := (hall _ [] (List.append_nil _).symm).lookUp q
        rw [lookUp_eq, run, entries, List.foldl_concat, List.foldl_concat] at hlookUp
        rw [hget]
        exact hlookUp
      · refine hops before key after ?_
        rw [List.concat_eq_append, ← List.cons_append, ← List.append_assoc] at h
        exact (List.append_inj' h rfl).1
  · rintro h before after rfl
    have hok : ∀ before' key after', before = before' ++ .deleteEntry key :: after' →
        DeleteOk (entries before') key := fun before' key after' hbefore =>
      h before' key (after' ++ after) (by rw [hbefore, List.append_assoc, List.cons_append])
    obtain ⟨hwf, hget⟩ := run_spec hok
    rw [← hget]
    exact hwf.answers

/-- The branch of `ab` is cut off below the root, with the data of `a` in it. -/
theorem deleteEntry_cuts_prefix :
    ¬ ∀ ops : List (Op Nat), Answers (run ops) (entries ops) := by
  intro h
  have ha := (h [.addEntry ['a', 'b'] 1, .addEntry ['a'] 2, .deleteEntry ['a', 'b']]).lookUp ['a']
  have hnone : lookUp (utf8 ['a'])
      (run [.addEntry ['a', 'b'] 1, .addEntry ['a'] 2, .deleteEntry ['a', 'b']]) = none := by
    decide +kernel
  rw [hnone] at ha
  exact absurd ha (by decide)

end runs

end Trie

end Mozkey.Base
