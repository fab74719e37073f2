import Mozkey.Lib.KeyedList
import Mozkey.Lib.StableSort
import Mozkey.Storage.LruStorage

/-! The items of a storage, as its recency list orders them: the invariant that keeps slots, list
and map in step, and what each operation does to the items. -/

namespace Mozkey.Storage

open Lib

namespace StorageFile

variable {n i j : Nat} {file : StorageFile n} {x : Item n}

structure Sound (file : StorageFile n) : Prop where
  aligned : n % 4 = 0
  value : ¬ (n = 0 ∨ n > kMaxValueSize)
  size : ¬ (file.size = 0 ∨ file.size > kMaxLruSize)
  length : file.items.length = file.size

theorem item_setItem_self (hi : i < file.items.length) : (file.setItem i x).item i = x := by
  rw [item, setItem, List.getD_eq_getElem?_getD, List.getElem?_set_self hi]
  rfl

theorem item_setItem_ne (hj : j ≠ i) : (file.setItem i x).item j = file.item j := by
  rw [item, setItem, List.getD_eq_getElem?_getD, List.getElem?_set_ne hj.symm, item,
    List.getD_eq_getElem?_getD]

theorem length_setItem : (file.setItem i x).items.length = file.items.length := List.length_set

theorem Sound.setItem (h : file.Sound) : (file.setItem i x).Sound :=
  ⟨h.aligned, h.value, h.size, length_setItem.trans h.length⟩

theorem setItem_self : file.setItem i (file.item i) = file := by
  have hset : file.items.set i (file.item i) = file.items := by
    refine List.ext_getElem? fun j => ?_
    rcases eq_or_ne i j with rfl | hne
    · by_cases hi : i < file.items.length
      · rw [List.getElem?_set_self hi, item, List.getD_eq_getElem _ _ hi,
          List.getElem?_eq_getElem hi]
      · rw [List.getElem?_eq_none (by rw [List.length_set]; omega),
          List.getElem?_eq_none (by omega)]
    · rw [List.getElem?_set_ne hne]
  rw [setItem, hset]

end StorageFile

namespace LruStorage

section invariant

variable {n : Nat} {s : LruStorage n} {items : List (Item n)} {y : Item n} {fp : UInt64}
  {node i : Nat} {as bs : List (Nat × Nat)} {header : Nat × UInt32} {m : AList fun _ : UInt64 => Nat}

def content (file : StorageFile n) (x : Nat × Nat) : Item n := file.item x.2

/-- The storage holds `items`, the most recent first.  They fill the slots before `nextItem`, the
list has a node for each, by falling timestamps, and the map leads to those nodes. -/
structure Holds (header : Nat × UInt32) (s : LruStorage n) (items : List (Item n)) : Prop where
  header : (s.file.size, s.file.seed) = header
  sound : s.file.Sound
  nodes : (s.lruList.map Prod.fst).Nodup
  fresh : ∀ x ∈ s.lruList, x.1 < s.nextNode
  slots : (s.lruList.map Prod.snd).Perm (List.range s.nextItem)
  le : s.nextItem ≤ s.file.items.length
  eq_map : items = s.lruList.map (content s.file)
  used : ∀ x ∈ items, x.timestamp ≠ 0
  zero : ∀ i, s.nextItem ≤ i → s.file.item i = Item.zero n
  sorted : items.Pairwise fun x y => y.timestamp ≤ x.timestamp
  map : ∀ fp node, s.lruMap.lookup fp = some node ↔
    ∃ i, (node, i) ∈ s.lruList ∧ (s.file.item i).fp = fp

namespace Holds

theorem lt_nextItem (h : Holds header s items) {x : Nat × Nat} (hx : x ∈ s.lruList) : x.2 < s.nextItem :=
  List.mem_range.mp (h.slots.mem_iff.mp (List.mem_map_of_mem hx))

theorem lt_length (h : Holds header s items) {x : Nat × Nat} (hx : x ∈ s.lruList) :
    x.2 < s.file.items.length := Nat.lt_of_lt_of_le (h.lt_nextItem hx) h.le

theorem length_eq (h : Holds header s items) : items.length = s.nextItem := by
  have := h.slots.length_eq
  rwa [List.length_map, List.length_range, ← List.length_map (content s.file), ← h.eq_map] at this

theorem slots_nodup (h : Holds header s items) : (s.lruList.map Prod.snd).Nodup :=
  h.slots.nodup_iff.mpr List.nodup_range

theorem slot_ne (h : Holds header s items) (hlist : s.lruList = as ++ (node, i) :: bs) :
    ∀ x ∈ as ++ bs, x.2 ≠ i :=
  forall_ne_of_nodup (a := (node, i)) rfl (hlist ▸ h.slots_nodup)

theorem node_ne (h : Holds header s items) (hlist : s.lruList = as ++ (node, i) :: bs) :
    ∀ x ∈ as ++ bs, x.1 ≠ node :=
  forall_ne_of_nodup (a := (node, i)) rfl (hlist ▸ h.nodes)

theorem find_eq (h : Holds header s items) (hlist : s.lruList = as ++ (node, i) :: bs) :
    s.lruList.find? (fun x => x.1 = node) = some (node, i) := by
  rw [hlist]
  exact find?_split (f := Prod.fst) (a := (node, i)) (k := node) rfl
    fun x hx => h.node_ne hlist x (List.mem_append_left _ hx)

theorem deref_eq (h : Holds header s items) (hlist : s.lruList = as ++ (node, i) :: bs) :
    s.deref node = some i := by
  rw [deref, h.find_eq hlist]
  rfl

theorem fp_ne (h : Holds header s items) (hlist : s.lruList = as ++ (node, i) :: bs) :
    ∀ x ∈ as ++ bs, (content s.file x).fp ≠ (s.file.item i).fp := by
  rintro ⟨node', j⟩ hx heq
  have hmem : (node', j) ∈ s.lruList :=
    hlist ▸ List.perm_middle.mem_iff.mpr (List.mem_cons_of_mem _ hx)
  have h₁ := (h.map _ node').mpr ⟨j, hmem, heq⟩
  have h₂ := (h.map _ node).mpr ⟨i, hlist ▸ by simp, rfl⟩
  exact h.node_ne hlist _ hx (Option.some.inj (h₁.symm.trans h₂))

theorem split (h : Holds header s items) (hfp : s.lruMap.lookup fp = some node) :
    ∃ as bs i, s.lruList = as ++ (node, i) :: bs ∧ (s.file.item i).fp = fp := by
  obtain ⟨i, hmem, hi⟩ := (h.map fp node).mp hfp
  obtain ⟨as, bs, hlist⟩ := List.append_of_mem hmem
  exact ⟨as, bs, i, hlist, hi⟩

theorem items_split (h : Holds header s items) (hlist : s.lruList = as ++ (node, i) :: bs) :
    items = as.map (content s.file) ++ s.file.item i :: bs.map (content s.file) := by
  rw [h.eq_map, hlist, List.map_append, List.map_cons]
  rfl

theorem filter_eq (h : Holds header s items) (hlist : s.lruList = as ++ (node, i) :: bs)
    (hfp : (s.file.item i).fp = fp) :
    items.filter (fun x => x.fp ≠ fp) = (as ++ bs).map (content s.file) := by
  rw [h.items_split hlist, List.map_append]
  refine filter_split hfp fun x hx => ?_
  rw [← List.map_append] at hx
  obtain ⟨y, hy, rfl⟩ := List.mem_map.mp hx
  exact hfp ▸ h.fp_ne hlist y hy

theorem absent (h : Holds header s items) (hfp : s.lruMap.lookup fp = none) : ∀ x ∈ items, x.fp ≠ fp := by
  rintro x hx heq
  rw [h.eq_map] at hx
  obtain ⟨⟨node, i⟩, hmem, rfl⟩ := List.mem_map.mp hx
  have := (h.map fp node).mpr ⟨i, hmem, heq⟩
  rw [hfp] at this
  exact Option.some_ne_none node this.symm

theorem pairwise_rest (h : Holds header s items) (hlist : s.lruList = as ++ (node, i) :: bs) :
    ((as ++ bs).map (content s.file)).Pairwise fun x y => y.timestamp ≤ x.timestamp := by
  have hsorted := h.sorted
  rw [h.eq_map, hlist] at hsorted
  refine hsorted.sublist (List.Sublist.map _ ?_)
  exact List.Sublist.append_left (List.sublist_cons_self _ _) as

theorem overwrite (h : Holds header s items) (hlist : s.lruList = as ++ (node, i) :: bs)
    (hused : y.timestamp ≠ 0) (hlatest : ∀ x ∈ items, x.timestamp ≤ y.timestamp)
    (hmap : ∀ fp node', m.lookup fp = some node' ↔ y.fp = fp ∧ node' = node ∨
      ∃ j, (node', j) ∈ as ++ bs ∧ (s.file.item j).fp = fp) :
    Holds header { s with file := s.file.setItem i y, lruList := (node, i) :: (as ++ bs), lruMap := m }
      (y :: (as ++ bs).map (content s.file)) := by
  have hperm : ((node, i) :: (as ++ bs)).Perm s.lruList := hlist ▸ List.perm_middle.symm
  have hmem : (node, i) ∈ s.lruList := hperm.mem_iff.mp List.mem_cons_self
  have hself : (s.file.setItem i y).item i = y := StorageFile.item_setItem_self (h.lt_length hmem)
  have hother : ∀ x ∈ as ++ bs, (s.file.setItem i y).item x.2 = s.file.item x.2 := fun x hx =>
    StorageFile.item_setItem_ne (h.slot_ne hlist x hx)
  have hrest : ∀ x ∈ (as ++ bs).map (content s.file), x ∈ items := by
    intro x hx
    rw [h.eq_map]
    exact (hperm.map _).mem_iff.mp (List.mem_cons_of_mem _ hx)
  refine ⟨h.header, h.sound.setItem, (hperm.map _).nodup_iff.mpr h.nodes, fun x hx => h.fresh x
    (hperm.mem_iff.mp hx), (hperm.map _).trans h.slots, ?_, ?_, ?_, ?_, ?_, ?_⟩
  · exact StorageFile.length_setItem.symm ▸ h.le
  · rw [List.map_cons, content, hself]
    exact congrArg (y :: ·) (List.map_congr_left fun x hx => (hother x hx).symm)
  · intro x hx
    rcases List.mem_cons.mp hx with rfl | hx
    · exact hused
    · exact h.used x (hrest x hx)
  · intro j hj
    have hji : j ≠ i := (Nat.lt_of_lt_of_le (h.lt_nextItem hmem) hj).ne'
    rw [StorageFile.item_setItem_ne hji]
    exact h.zero j hj
  · exact List.pairwise_cons.mpr ⟨fun x hx => hlatest x (hrest x hx), h.pairwise_rest hlist⟩
  · intro fp node'
    rw [hmap]
    constructor
    · rintro (⟨hfp, rfl⟩ | ⟨j, hj, hfp⟩)
      · exact ⟨i, List.mem_cons_self, (congrArg Item.fp hself).trans hfp⟩
      · exact ⟨j, List.mem_cons_of_mem _ hj, (hother _ hj) ▸ hfp⟩
    · rintro ⟨j, hj, hfp⟩
      rcases List.mem_cons.mp hj with heq | hj
      · obtain ⟨rfl, rfl⟩ := Prod.mk.inj heq
        exact Or.inl ⟨hself ▸ hfp, rfl⟩
      · exact Or.inr ⟨j, hj, (hother _ hj) ▸ hfp⟩

theorem map_of_fp (h : Holds header s items) (hlist : s.lruList = as ++ (node, i) :: bs) (fp : UInt64)
    (node' : Nat) : s.lruMap.lookup fp = some node' ↔ (s.file.item i).fp = fp ∧ node' = node ∨
      ∃ j, (node', j) ∈ as ++ bs ∧ (s.file.item j).fp = fp := by
  have hperm : ((node, i) :: (as ++ bs)).Perm s.lruList := hlist ▸ List.perm_middle.symm
  rw [h.map]
  constructor
  · rintro ⟨j, hj, hfp⟩
    rcases List.mem_cons.mp (hperm.mem_iff.mpr hj) with heq | hj
    · obtain ⟨rfl, rfl⟩ := Prod.mk.inj heq
      exact Or.inl ⟨hfp, rfl⟩
    · exact Or.inr ⟨j, hj, hfp⟩
  · rintro (⟨hfp, rfl⟩ | ⟨j, hj, hfp⟩)
    · exact ⟨i, hperm.mem_iff.mp List.mem_cons_self, hfp⟩
    · exact ⟨j, hperm.mem_iff.mp (List.mem_cons_of_mem _ hj), hfp⟩

theorem append (h : Holds header s items) (hlt : s.nextItem < s.file.items.length)
    (hused : y.timestamp ≠ 0) (hlatest : ∀ x ∈ items, x.timestamp ≤ y.timestamp)
    (hfp : s.lruMap.lookup y.fp = none) :
    Holds header { s with
      file := s.file.setItem s.nextItem y
      lruList := (s.nextNode, s.nextItem) :: s.lruList
      lruMap := s.lruMap.insert y.fp s.nextNode
      nextNode := s.nextNode + 1
      nextItem := s.nextItem + 1 } (y :: items) := by
  have hself : (s.file.setItem s.nextItem y).item s.nextItem = y :=
    StorageFile.item_setItem_self hlt
  have hother : ∀ x ∈ s.lruList, (s.file.setItem s.nextItem y).item x.2 = s.file.item x.2 :=
    fun x hx => StorageFile.item_setItem_ne (h.lt_nextItem hx).ne
  refine ⟨h.header, h.sound.setItem, ?_, ?_, ?_, ?_, ?_, ?_, ?_, ?_, ?_⟩
  · refine List.nodup_cons.mpr ⟨fun hmem => ?_, h.nodes⟩
    obtain ⟨x, hx, heq⟩ := List.mem_map.mp hmem
    exact (h.fresh x hx).ne heq
  · intro x hx
    rcases List.mem_cons.mp hx with rfl | hx
    · exact Nat.lt_succ_self _
    · exact Nat.lt_succ_of_lt (h.fresh x hx)
  · rw [List.map_cons, List.range_succ]
    exact (List.Perm.cons _ h.slots).trans (List.perm_append_singleton _ _).symm
  · exact StorageFile.length_setItem.symm ▸ hlt
  · rw [List.map_cons, content, hself, h.eq_map]
    exact congrArg (y :: ·) (List.map_congr_left fun x hx => (hother x hx).symm)
  · intro x hx
    rcases List.mem_cons.mp hx with rfl | hx
    · exact hused
    · exact h.used x hx
  · intro j hj
    rw [StorageFile.item_setItem_ne (Nat.lt_of_succ_le hj).ne']
    exact h.zero j (Nat.le_of_succ_le hj)
  · exact List.pairwise_cons.mpr ⟨hlatest, h.sorted⟩
  · intro fp node'
    rcases eq_or_ne fp y.fp with rfl | hne
    · rw [AList.lookup_insert]
      constructor
      · intro hnode
        exact ⟨s.nextItem, Option.some.inj hnode ▸ List.mem_cons_self, by rw [hself]⟩
      · rintro ⟨j, hj, hj'⟩
        rcases List.mem_cons.mp hj with heq | hj
        · rw [(Prod.mk.inj heq).1]
        · rw [hother _ hj] at hj'
          have := (h.map _ node').mpr ⟨j, hj, hj'⟩
          exact absurd (this.symm.trans hfp) (Option.some_ne_none _)
    · rw [AList.lookup_insert_ne hne, h.map]
      constructor
      · rintro ⟨j, hj, hj'⟩
        exact ⟨j, List.mem_cons_of_mem _ hj, (hother _ hj) ▸ hj'⟩
      · rintro ⟨j, hj, hj'⟩
        rcases List.mem_cons.mp hj with heq | hj
        · rw [(Prod.mk.inj heq).2, hself] at hj'
          exact absurd hj'.symm hne
        · exact ⟨j, hj, (hother _ hj) ▸ hj'⟩

theorem relocate (h : Holds header s items) (hlist : s.lruList = as ++ (node, i) :: bs) (last : Nat) :
    ∀ x ∈ as ++ bs, ((s.file.setItem i (s.file.item last)).setItem last (Item.zero n)).item
      (if x.2 = last then i else x.2) = s.file.item x.2 := by
  intro x hx
  have hmem : (node, i) ∈ s.lruList := hlist ▸ by simp
  have hi := h.lt_length hmem
  split
  · rename_i hx'
    have hne : i ≠ last := hx' ▸ (h.slot_ne hlist x hx).symm
    rw [StorageFile.item_setItem_ne hne, StorageFile.item_setItem_self hi, hx']
  · rename_i hx'
    rw [StorageFile.item_setItem_ne hx', StorageFile.item_setItem_ne (h.slot_ne hlist x hx)]

theorem remove {last : Nat} (h : Holds header s items) (hlist : s.lruList = as ++ (node, i) :: bs)
    (hlast : s.nextItem = last + 1) :
    Holds header { s with
      file := (s.file.setItem i (s.file.item last)).setItem last (Item.zero n)
      nextItem := last
      lruList := (as ++ bs).map fun x => (x.1, if x.2 = last then i else x.2)
      lruMap := s.lruMap.erase (s.file.item i).fp } ((as ++ bs).map (content s.file)) := by
  have hperm : ((node, i) :: (as ++ bs)).Perm s.lruList := hlist ▸ List.perm_middle.symm
  have hmem : (node, i) ∈ s.lruList := hperm.mem_iff.mp List.mem_cons_self
  have hrest : ∀ x ∈ as ++ bs, x ∈ s.lruList := fun x hx =>
    hperm.mem_iff.mp (List.mem_cons_of_mem _ hx)
  have hkeep := h.relocate hlist last
  have hsub : ((as ++ bs).map (content s.file)).Sublist items := by
    rw [h.eq_map, hlist]
    exact (List.Sublist.append_left (List.sublist_cons_self _ _) as).map _
  have hle := h.le
  refine ⟨h.header, h.sound.setItem.setItem, ?_, ?_, ?_, ?_, ?_, fun x hx => h.used x (hsub.mem hx), ?_,
    h.pairwise_rest hlist, ?_⟩
  · rw [List.map_map]
    exact (List.nodup_cons.mp ((hperm.map Prod.fst).nodup_iff.mpr h.nodes)).2
  · intro x hx
    obtain ⟨y, hy, rfl⟩ := List.mem_map.mp hx
    exact h.fresh y (hrest y hy)
  · -- the slots are those before `last`, each once
    have hslots : ∀ x ∈ as ++ bs, x.2 < last + 1 := fun x hx => hlast ▸ h.lt_nextItem (hrest x hx)
    have hnodup := List.nodup_cons.mp ((hperm.map Prod.snd).nodup_iff.mpr h.slots_nodup)
    have hi : i < last + 1 := hlast ▸ h.lt_nextItem hmem
    have hmap : ((as ++ bs).map fun x => (x.1, if x.2 = last then i else x.2)).map Prod.snd =
        ((as ++ bs).map Prod.snd).map fun j => if j = last then i else j := by
      rw [List.map_map, List.map_map]
      rfl
    show (List.map Prod.snd _).Perm (List.range last)
    rw [hmap]
    refine (List.perm_ext_iff_of_nodup ?_ List.nodup_range).mpr fun j => ?_
    · refine hnodup.2.map_on fun j hj k hk heq => ?_
      have hji : j ≠ i := fun hji => hnodup.1 (hji ▸ hj)
      have hki : k ≠ i := fun hki => hnodup.1 (hki ▸ hk)
      by_cases hj' : j = last <;> by_cases hk' : k = last <;> simp_all
    · rw [List.mem_range, List.mem_map]
      constructor
      · rintro ⟨k, hk, rfl⟩
        obtain ⟨x, hx, rfl⟩ := List.mem_map.mp hk
        have := hslots x hx
        have := h.slot_ne hlist x hx
        split <;> omega
      · intro hj
        have hall : ∀ k, k < last + 1 → k ≠ i → k ∈ (as ++ bs).map Prod.snd := by
          intro k hk hki
          have hin : k ∈ s.lruList.map Prod.snd :=
            h.slots.mem_iff.mpr (List.mem_range.mpr (hlast ▸ hk))
          have := (hperm.map Prod.snd).mem_iff.mpr hin
          exact (List.mem_cons.mp this).resolve_left hki
        by_cases hji : j = i
        · exact ⟨last, hall last (Nat.lt_succ_self _) (by omega), by rw [if_pos rfl, hji]⟩
        · exact ⟨j, hall j (by omega) hji, by rw [if_neg (by omega)]⟩
  · show last ≤ ((s.file.setItem i _).setItem last _).items.length
    rw [StorageFile.length_setItem, StorageFile.length_setItem]
    omega
  · rw [List.map_map]
    exact List.map_congr_left fun x hx => (hkeep x hx).symm
  · intro j (hj : last ≤ j)
    have hlen : ((s.file.setItem i (s.file.item last)).setItem last (Item.zero n)).item last =
        Item.zero n := StorageFile.item_setItem_self (by rw [StorageFile.length_setItem]; omega)
    rcases Nat.eq_or_lt_of_le hj with rfl | hlt
    · exact hlen
    · have hi := h.lt_nextItem hmem
      rw [StorageFile.item_setItem_ne hlt.ne', StorageFile.item_setItem_ne (by omega)]
      exact h.zero j (by omega)
  · intro fp node'
    have hother : (∃ j, (node', j) ∈ (as ++ bs).map (fun x => (x.1, if x.2 = last then i else x.2)) ∧
        (((s.file.setItem i (s.file.item last)).setItem last (Item.zero n)).item j).fp = fp) ↔
        ∃ j, (node', j) ∈ as ++ bs ∧ (s.file.item j).fp = fp := by
      constructor
      · rintro ⟨j, hj, hfp⟩
        obtain ⟨x, hx, heq⟩ := List.mem_map.mp hj
        obtain ⟨rfl, rfl⟩ := Prod.mk.inj heq
        exact ⟨x.2, hx, by rwa [hkeep x hx] at hfp⟩
      · rintro ⟨j, hj, hfp⟩
        exact ⟨_, List.mem_map_of_mem hj, by rw [hkeep _ hj, hfp]⟩
    rw [hother]
    rcases eq_or_ne fp (s.file.item i).fp with rfl | hne
    · rw [AList.lookup_erase]
      refine ⟨fun hnone => (Option.some_ne_none _ hnone.symm).elim, ?_⟩
      rintro ⟨j, hj, hj'⟩
      exact absurd hj' (h.fp_ne hlist _ hj)
    · rw [AList.lookup_erase_ne hne, h.map_of_fp hlist]
      exact or_iff_right fun hfp => hne hfp.1.symm

theorem deleteNode (h : Holds header s items) (hlist : s.lruList = as ++ (node, i) :: bs) :
    ∃ s', s.deleteNode (s.file.item i).fp node = some (true, s') ∧
      Holds header s' ((as ++ bs).map (content s.file)) := by
  have hmem : (node, i) ∈ s.lruList := hlist ▸ by simp
  obtain ⟨last, hlast⟩ : ∃ last, s.nextItem = last + 1 :=
    Nat.exists_eq_succ_of_ne_zero (Nat.ne_of_gt (Nat.lt_of_le_of_lt (Nat.zero_le _)
      (h.lt_nextItem hmem)))
  have hfilter : s.lruList.filter (fun x => x.1 ≠ node) = as ++ bs := by
    rw [hlist]
    exact filter_split (f := Prod.fst) (a := (node, i)) (k := node) rfl (h.node_ne hlist)
  obtain ⟨t, ht⟩ : ∃ t : LruStorage n, t = { s with
    nextItem := last, lruMap := s.lruMap.erase (s.file.item i).fp, lruList := as ++ bs } := ⟨_, rfl⟩
  have hmove : t.moveLast i = some { t with
      file := s.file.setItem i (s.file.item last)
      lruList := (as ++ bs).map fun x => (x.1, if x.2 = last then i else x.2) } := by
    by_cases hi : last = i
    · have hkeep : (as ++ bs).map (fun x => (x.1, if x.2 = last then i else x.2)) = as ++ bs := by
        refine (List.map_congr_left fun x hx => ?_).trans (List.map_id _)
        rw [if_neg (hi ▸ h.slot_ne hlist x hx)]
        rfl
      rw [moveLast, if_neg (by rw [ht]; exact not_not.mpr hi), hkeep, hi,
        StorageFile.setItem_self, ht]
    · -- the node of the last item
      have hperm : ((node, i) :: (as ++ bs)).Perm s.lruList := hlist ▸ List.perm_middle.symm
      have hin : last ∈ s.lruList.map Prod.snd :=
        h.slots.mem_iff.mpr (List.mem_range.mpr (hlast ▸ Nat.lt_succ_self last))
      obtain ⟨⟨moved, j⟩, hx, rfl⟩ := List.mem_map.mp hin
      have hx' : (moved, j) ∈ as ++ bs :=
        (List.mem_cons.mp (hperm.mem_iff.mpr hx)).resolve_left fun heq => hi (Prod.mk.inj heq).2
      obtain ⟨cs, ds, hsplit⟩ := List.append_of_mem hx'
      have hnodes := (List.nodup_cons.mp ((hperm.map Prod.fst).nodup_iff.mpr h.nodes)).2
      have hslots := (List.nodup_cons.mp ((hperm.map Prod.snd).nodup_iff.mpr h.slots_nodup)).2
      rw [hsplit] at hnodes hslots
      have hnode := forall_ne_of_nodup (f := Prod.fst) (a := (moved, j)) rfl hnodes
      have hslot := forall_ne_of_nodup (f := Prod.snd) (a := (moved, j)) rfl hslots
      have hlookup : t.lruMap.lookup (s.file.item j).fp = some moved := by
        rw [ht]
        exact (AList.lookup_erase_ne (h.fp_ne hlist _ hx')).trans ((h.map _ _).mpr ⟨j, hx, rfl⟩)
      have hnext : t.nextItem = j := by rw [ht]
      have hfile : t.file = s.file := by rw [ht]
      have hderef : (t.setItem i (t.file.item t.nextItem)).deref moved = some j := by
        have hfind : t.lruList.find? (fun x => x.1 = moved) = some (moved, j) := by
          rw [ht, hsplit]
          exact find?_split (f := Prod.fst) (a := (moved, j)) (k := moved) rfl
            fun x hx => hnode x (List.mem_append_left _ hx)
        show (t.lruList.find? fun x => x.1 = moved).map Prod.snd = some j
        rw [hfind]
        rfl
      have hlookup' : (t.setItem i (t.file.item t.nextItem)).lruMap.lookup
          ((t.setItem i (t.file.item t.nextItem)).file.item
            (t.setItem i (t.file.item t.nextItem)).nextItem).fp = some moved := by
        show t.lruMap.lookup ((t.file.setItem i (t.file.item t.nextItem)).item t.nextItem).fp = _
        rw [hnext, StorageFile.item_setItem_ne hi, hfile, hlookup]
      have hmap : (as ++ bs).map (fun x => if x.1 = moved then (x.1, i) else x) =
          (as ++ bs).map fun x => (x.1, if x.2 = j then i else x.2) := by
        refine List.map_congr_left fun x hx => ?_
        rw [hsplit] at hx
        rcases List.mem_cons.mp (List.perm_middle.mem_iff.mp hx) with rfl | hx
        · rw [if_pos rfl, if_pos rfl]
        · rw [if_neg (hnode x hx), if_neg (hslot x hx)]
      rw [moveLast, if_pos (by rw [hnext]; exact hi)]
      simp only [hlookup', hderef, Option.bind_eq_bind, Option.bind_some]
      rw [← hmap, setItem, hnext, hfile, ht]
  refine ⟨_, ?_, h.remove hlist hlast⟩
  have hderef : ({ s with nextItem := last } : LruStorage n).deref node = some i :=
    h.deref_eq hlist
  have hpos : ¬ s.nextItem < 1 := by omega
  rw [LruStorage.deleteNode, if_neg hpos]
  simp only [hderef, hfilter, hlast, Nat.add_sub_cancel, Option.bind_eq_bind, Option.bind_some]
  rw [← ht, hmove, ht]
  rfl

end Holds

/-- The list and the map that the loop of `Open` has built from the slots `slots`. -/
structure Opened (s : LruStorage n) (slots : List Nat) : Prop where
  slots : s.lruList.map Prod.snd = slots
  nodes : (s.lruList.map Prod.fst).Nodup
  fresh : ∀ x ∈ s.lruList, x.1 < s.nextNode
  map : ∀ fp node, s.lruMap.lookup fp = some node ↔
    ∃ i, (node, i) ∈ s.lruList ∧ (s.file.item i).fp = fp

theorem Opened.snoc {slots : List Nat} (h : Opened s slots)
    (hfp : ∀ j ∈ slots, (s.file.item j).fp ≠ (s.file.item i).fp) :
    Opened { s with
      lruList := s.lruList ++ [(s.nextNode, i)]
      lruMap := s.lruMap.insert (s.file.item i).fp s.nextNode
      nextNode := s.nextNode + 1 } (slots ++ [i]) := by
  have hslot : ∀ x ∈ s.lruList, x.2 ∈ slots := fun x hx => h.slots ▸ List.mem_map_of_mem hx
  refine ⟨by rw [List.map_append, h.slots]; rfl, ?_, ?_, fun fp node => ?_⟩
  · rw [List.map_append, List.map_singleton]
    refine (List.perm_append_singleton _ _).nodup_iff.mpr (List.nodup_cons.mpr ⟨fun hmem => ?_,
      h.nodes⟩)
    obtain ⟨x, hx, heq⟩ := List.mem_map.mp hmem
    exact (h.fresh x hx).ne heq
  · intro x hx
    rcases List.mem_append.mp hx with hx | hx
    · exact Nat.lt_succ_of_lt (h.fresh x hx)
    · rw [List.mem_singleton.mp hx]
      exact Nat.lt_succ_self _
  · rcases eq_or_ne fp (s.file.item i).fp with rfl | hne
    · rw [AList.lookup_insert]
      constructor
      · intro hnode
        exact ⟨i, Option.some.inj hnode ▸ List.mem_concat_self, rfl⟩
      · rintro ⟨j, hj, hj'⟩
        rcases List.mem_append.mp hj with hj | hj
        · exact absurd hj' (hfp j (hslot _ hj))
        · rw [(Prod.mk.inj (List.mem_singleton.mp hj)).1]
    · rw [AList.lookup_insert_ne hne, h.map]
      constructor
      · rintro ⟨j, hj, hj'⟩
        exact ⟨j, List.mem_append_left _ hj, hj'⟩
      · rintro ⟨j, hj, hj'⟩
        rcases List.mem_append.mp hj with hj | hj
        · exact ⟨j, hj, hj'⟩
        · rw [(Prod.mk.inj (List.mem_singleton.mp hj)).2] at hj'
          exact absurd hj'.symm hne

abbrev Used (file : StorageFile n) (i : Nat) : Prop := (file.item i).timestamp ≠ 0

theorem openLoop_eq {ary slots : List Nat} {next : Option Nat} (h : Opened s slots)
    (hfps : ((slots ++ ary.filter fun i => Used s.file i).map fun i => (s.file.item i).fp).Nodup) :
    ∃ s', openLoop ary next s = (next <|> (ary.filter fun i => ¬ Used s.file i).head?, s') ∧
      s'.file = s.file ∧ Opened s' (slots ++ ary.filter fun i => Used s.file i) := by
  induction ary generalizing s slots next with
  | nil =>
    refine ⟨s, ?_, rfl, ?_⟩
    · rw [openLoop, List.filter_nil, List.head?_nil]
      cases next <;> rfl
    · rwa [List.filter_nil, List.append_nil]
  | cons i ary ih =>
    by_cases hi : Used s.file i
    · have hused : (i :: ary).filter (fun i => Used s.file i) =
          i :: ary.filter fun i => Used s.file i := List.filter_cons_of_pos (decide_eq_true hi)
      have hunused : (i :: ary).filter (fun i => ¬ Used s.file i) =
          ary.filter fun i => ¬ Used s.file i :=
        List.filter_cons_of_neg (by rw [decide_eq_true_iff]; exact not_not.mpr hi)
      rw [hused] at hfps
      have hfp : ∀ j ∈ slots, (s.file.item j).fp ≠ (s.file.item i).fp := by
        intro j hj heq
        rw [List.map_append, List.nodup_append] at hfps
        exact hfps.2.2 _ (List.mem_map_of_mem hj) _
          (List.mem_map_of_mem (List.mem_cons_self)) heq
      obtain ⟨s', hloop, hfile, hopened⟩ := ih (h.snoc hfp)
        (by rwa [List.append_assoc])
      rw [hused, hunused, openLoop, if_pos hi]
      refine ⟨s', hloop, hfile, ?_⟩
      rwa [List.append_assoc] at hopened
    · have hused : (i :: ary).filter (fun i => Used s.file i) =
          ary.filter fun i => Used s.file i :=
        List.filter_cons_of_neg (by rw [decide_eq_true_iff]; exact hi)
      have hunused : (i :: ary).filter (fun i => ¬ Used s.file i) =
          i :: ary.filter fun i => ¬ Used s.file i := List.filter_cons_of_pos (decide_eq_true hi)
      rw [hused] at hfps
      obtain ⟨s', hloop, hfile, hopened⟩ := ih h hfps
      rw [hused, hunused, openLoop, if_neg hi]
      refine ⟨s', ?_, hfile, hopened⟩
      rw [hloop]
      cases next <;> rfl

instance (file : StorageFile n) : Std.Total (SortsBefore file) :=
  ⟨fun i j => UInt32.le_total (file.item j).timestamp (file.item i).timestamp⟩

instance (file : StorageFile n) : IsTrans Nat (SortsBefore file) :=
  ⟨fun _ _ _ hij hjk => UInt32.le_trans hjk hij⟩

theorem unused_insertionSort (file : StorageFile n) (slots : List Nat) :
    (slots.insertionSort (SortsBefore file)).filter (fun i => ¬ Used file i) =
      slots.filter fun i => ¬ Used file i := by
  have hpair : (slots.filter fun i => ¬ Used file i).Pairwise (SortsBefore file) := by
    refine List.pairwise_iff_forall_sublist.mpr fun {i j} hij => ?_
    have hzero : ∀ {x}, x ∈ slots.filter (fun i => ¬ Used file i) →
        (file.item x).timestamp = 0 := fun hx =>
      not_not.mp (of_decide_eq_true (List.mem_filter.mp hx).2)
    have hi := hzero (hij.mem (by simp : i ∈ [i, j]))
    have hj := hzero (hij.mem (by simp : j ∈ [i, j]))
    show (file.item j).timestamp ≤ (file.item i).timestamp
    rw [hi, hj]
    exact UInt32.le_refl 0
  rw [filter_insertionSort, hpair.insertionSort_eq]

theorem openFile_eq {file : StorageFile n} (hsound : file.Sound) {k : Nat}
    (hk : k ≤ file.items.length) (hused : ∀ i < k, Used file i)
    (hzero : ∀ i, k ≤ i → file.item i = Item.zero n)
    (hfps : ((List.range k).map fun i => (file.item i).fp).Nodup) :
    ∃ s items, openFile file = some s ∧ Holds (file.size, file.seed) s items ∧
      items.Perm ((List.range k).map file.item) := by
  have hunused : ∀ i, k ≤ i → ¬ Used file i := fun i hi => by
    rw [Used, hzero i hi]
    exact not_not.mpr rfl
  have hrange : List.range file.items.length =
      List.range k ++ List.range' k (file.items.length - k) := by
    have happend := @List.range'_append_1 0 k (file.items.length - k)
    rw [Nat.zero_add, Nat.add_sub_cancel' hk] at happend
    rw [List.range_eq_range', List.range_eq_range', happend]
  have hfilterUsed : (List.range file.items.length).filter (fun i => Used file i) =
      List.range k := by
    rw [hrange, List.filter_append, List.filter_eq_self.mpr, List.filter_eq_nil_iff.mpr,
      List.append_nil]
    · intro i hi
      rw [decide_eq_true_iff]
      exact hunused i (List.mem_range'_1.mp hi).1
    · exact fun i hi => decide_eq_true (hused i (List.mem_range.mp hi))
  have hfilterUnused : (List.range file.items.length).filter (fun i => ¬ Used file i) =
      List.range' k (file.items.length - k) := by
    rw [hrange, List.filter_append, List.filter_eq_nil_iff.mpr, List.filter_eq_self.mpr,
      List.nil_append]
    · exact fun i hi => decide_eq_true (hunused i (List.mem_range'_1.mp hi).1)
    · intro i hi
      rw [decide_eq_true_iff, not_not]
      exact hused i (List.mem_range.mp hi)
  obtain ⟨ary, hary⟩ : ∃ ary, ary =
      (List.range file.items.length).insertionSort (SortsBefore file) := ⟨_, rfl⟩
  have hslots : (ary.filter fun i => Used file i).Perm (List.range k) := by
    rw [hary, ← hfilterUsed]
    exact (List.perm_insertionSort _ _).filter _
  obtain ⟨s₀, hs₀⟩ : ∃ s₀ : LruStorage n, s₀ = ⟨file, 0, [], ∅, 0⟩ := ⟨_, rfl⟩
  have hstart : Opened s₀ [] := by
    rw [hs₀]
    refine ⟨rfl, List.nodup_nil, fun _ hx => (List.not_mem_nil hx).elim, fun fp node => ?_⟩
    rw [AList.lookup_empty]
    refine ⟨fun h => (Option.some_ne_none _ h.symm).elim, ?_⟩
    rintro ⟨i, hi, -⟩
    exact (List.not_mem_nil hi).elim
  have hfile₀ : s₀.file = file := by rw [hs₀]
  obtain ⟨s', hloop, hfile, hopened⟩ := openLoop_eq hstart (by
    rw [List.nil_append, hfile₀]
    exact ((hslots.map _).nodup_iff).mpr hfps)
  rw [hfile₀] at hloop hfile hopened
  rw [List.nil_append] at hopened
  have hnext : (ary.filter fun i => ¬ Used file i).head?.getD file.items.length = k := by
    rw [hary, unused_insertionSort, hfilterUnused]
    rcases Nat.eq_or_lt_of_le hk with rfl | hlt
    · rw [Nat.sub_self]
      rfl
    · obtain ⟨m, hm⟩ : ∃ m, file.items.length - k = m + 1 := ⟨_, (Nat.succ_pred_eq_of_pos
        (Nat.sub_pos_of_lt hlt)).symm⟩
      rw [hm]
      rfl
  have hopen : openFile file = some { s' with nextItem := k } := by
    rw [openFile, if_neg (not_not.mpr hsound.aligned), if_neg hsound.size, if_neg hsound.value,
      if_neg (not_not.mpr hsound.length)]
    simp only [← hary]
    rw [← hs₀, hloop]
    exact congrArg (fun k => some { s' with nextItem := k }) hnext
  have heq : (ary.filter fun i => Used file i).map file.item =
      s'.lruList.map (content s'.file) := by
    rw [← hopened.slots, List.map_map, hfile]
    rfl
  refine ⟨_, (ary.filter fun i => Used file i).map file.item, hopen,
    ⟨by rw [hfile], hfile ▸ hsound, hopened.nodes, hopened.fresh, ?_, ?_, heq, ?_, ?_, ?_,
      hopened.map⟩, hslots.map _⟩
  · rw [hopened.slots]
    exact hslots
  · rw [hfile]
    exact hk
  · intro x hx
    obtain ⟨i, hi, rfl⟩ := List.mem_map.mp hx
    exact of_decide_eq_true (List.mem_filter.mp hi).2
  · rw [hfile]
    exact hzero
  · rw [List.pairwise_map]
    refine List.Pairwise.sublist List.filter_sublist ?_
    rw [hary]
    exact List.pairwise_insertionSort (SortsBefore file) _

section operations

variable {now : UInt32} {value : Vector UInt8 n}

namespace Holds

theorem used_of_lt (h : Holds header s items) {j : Nat} (hj : j < s.nextItem) : Used s.file j := by
  have hmem : j ∈ s.lruList.map Prod.snd := h.slots.mem_iff.mpr (List.mem_range.mpr hj)
  obtain ⟨x, hx, rfl⟩ := List.mem_map.mp hmem
  exact h.used _ (h.eq_map ▸ List.mem_map_of_mem hx)

theorem items_perm (h : Holds header s items) :
    items.Perm ((List.range s.nextItem).map s.file.item) := by
  rw [h.eq_map, show s.lruList.map (content s.file) = (s.lruList.map Prod.snd).map s.file.item by
    rw [List.map_map]; rfl]
  exact h.slots.map _

theorem fps_nodup (h : Holds header s items) : (items.map Item.fp).Nodup := by
  rw [h.eq_map, List.map_map]
  refine List.Nodup.map_on ?_ (List.Nodup.of_map _ h.nodes)
  rintro ⟨node, i⟩ hx ⟨node', j⟩ hy heq
  have h₁ := (h.map _ node).mpr ⟨i, hx, heq⟩
  have h₂ := (h.map _ node').mpr ⟨j, hy, rfl⟩
  have hnode : node = node' := Option.some.inj (h₁.symm.trans h₂)
  exact List.inj_on_of_nodup_map h.nodes hx hy hnode

theorem reopen (h : Holds header s items) : ∃ s' items', s.reopen = some (true, s') ∧
    Holds header s' items' ∧ items'.Perm items := by
  have hfps : ((List.range s.nextItem).map fun i => (s.file.item i).fp).Nodup := by
    have := (h.items_perm.map Item.fp).nodup_iff.mp h.fps_nodup
    rwa [List.map_map] at this
  obtain ⟨s', items', hopen, h', hperm⟩ := openFile_eq h.sound h.le
    (fun i hi => h.used_of_lt hi) h.zero hfps
  refine ⟨s', items', ?_, h.header ▸ h', hperm.trans h.items_perm.symm⟩
  rw [LruStorage.reopen, hopen]
  rfl

theorem clear (h : Holds header s items) : ∃ s', s.clear = some (true, s') ∧
    Holds header s' [] := by
  by_cases hnil : s.lruList = []
  · have hitems : items = [] := by rw [h.eq_map, hnil]; rfl
    exact ⟨s, by rw [LruStorage.clear, if_pos hnil], hitems ▸ h⟩
  · obtain ⟨file, hfile⟩ : ∃ file : StorageFile n, file = { s.file with
        items := List.replicate s.file.items.length (Item.zero n) } := ⟨_, rfl⟩
    have hsound : file.Sound := by
      rw [hfile]
      exact ⟨h.sound.aligned, h.sound.value, h.sound.size,
        List.length_replicate.trans h.sound.length⟩
    have hzero : ∀ i, 0 ≤ i → file.item i = Item.zero n := by
      intro i _
      rw [hfile]
      rw [StorageFile.item, List.getD_eq_getElem?_getD, List.getElem?_getD_replicate_default_eq]
    obtain ⟨s', items', hopen, h', hperm⟩ := openFile_eq hsound (Nat.zero_le _)
      (fun i hi => (Nat.not_lt_zero i hi).elim) hzero List.nodup_nil
    have hitems : items' = [] := hperm.eq_nil
    refine ⟨s', ?_, ?_⟩
    · rw [LruStorage.clear, if_neg hnil]
      simp only [← hfile, hopen]
      rfl
    · rw [hitems, hfile] at h'
      exact h.header ▸ h'

theorem find_item (h : Holds header s items) (hlist : s.lruList = as ++ (node, i) :: bs)
    (hi : (s.file.item i).fp = fp) :
    items.find? (fun x => x.fp = fp) = some (s.file.item i) := by
  rw [h.items_split hlist]
  refine find?_split hi fun x hx => ?_
  obtain ⟨y, hy, rfl⟩ := List.mem_map.mp hx
  exact hi ▸ h.fp_ne hlist y (List.mem_append_left _ hy)

theorem lookup_eq (h : Holds header s items) (fp : UInt64) :
    s.lookup fp = (items.find? fun x => x.fp = fp).map Item.value := by
  cases hfp : s.lruMap.lookup fp with
  | none =>
    rw [LruStorage.lookup, hfp, find?_of_forall_ne (h.absent hfp)]
    rfl
  | some node =>
    obtain ⟨as, bs, i, hlist, hi⟩ := h.split hfp
    rw [LruStorage.lookup, hfp, h.find_item hlist hi]
    simp only [Option.bind_eq_bind, Option.bind_some, h.deref_eq hlist, Option.map_some]

theorem rewrite (h : Holds header s items) (hlist : s.lruList = as ++ (node, i) :: bs)
    (hi : (s.file.item i).fp = fp) (hy : y.fp = fp) (hused : y.timestamp ≠ 0)
    (hlatest : ∀ x ∈ items, x.timestamp ≤ y.timestamp) :
    Holds header ((s.setItem i y).spliceToFront node)
      (y :: items.filter fun x => x.fp ≠ fp) := by
  have hfind : (s.setItem i y).lruList.find? (fun x => x.1 = node) = some (node, i) :=
    h.find_eq hlist
  have hfilter : (s.setItem i y).lruList.filter (fun x => x.1 ≠ node) = as ++ bs := by
    show s.lruList.filter (fun x => x.1 ≠ node) = as ++ bs
    rw [hlist]
    exact filter_split (f := Prod.fst) (a := (node, i)) (k := node) rfl (h.node_ne hlist)
  rw [LruStorage.spliceToFront, hfind, h.filter_eq hlist hi]
  simp only [hfilter]
  exact h.overwrite hlist hused hlatest fun fp' node' => by
    rw [hy, ← hi]
    exact h.map_of_fp hlist fp' node'

theorem touch (h : Holds header s items) (hnow : now ≠ 0)
    (hlatest : ∀ x ∈ items, x.timestamp ≤ now) (fp : UInt64) :
    ∃ s', s.touch now fp = some ((items.find? fun x => x.fp = fp).isSome, s') ∧
      Holds header s' (match items.find? fun x => x.fp = fp with
        | some x => { x with timestamp := now } :: items.filter fun x => x.fp ≠ fp
        | none => items) := by
  cases hfp : s.lruMap.lookup fp with
  | none =>
    rw [LruStorage.touch, hfp, find?_of_forall_ne (h.absent hfp)]
    exact ⟨s, rfl, h⟩
  | some node =>
    obtain ⟨as, bs, i, hlist, hi⟩ := h.split hfp
    rw [LruStorage.touch, hfp, h.find_item hlist hi]
    refine ⟨_, by simp only [Option.bind_eq_bind, Option.bind_some, h.deref_eq hlist]; rfl, ?_⟩
    exact h.rewrite (y := { s.file.item i with timestamp := now }) hlist hi hi hnow hlatest

theorem tryInsert (h : Holds header s items) (hnow : now ≠ 0)
    (hlatest : ∀ x ∈ items, x.timestamp ≤ now) (fp : UInt64) (value : Vector UInt8 n) :
    ∃ s', s.tryInsert now fp value = some (true, s') ∧
      Holds header s' (if (items.find? fun x => x.fp = fp).isSome then
        ⟨fp, now, value⟩ :: items.filter fun x => x.fp ≠ fp else items) := by
  cases hfp : s.lruMap.lookup fp with
  | none =>
    rw [LruStorage.tryInsert, hfp, find?_of_forall_ne (h.absent hfp)]
    exact ⟨s, rfl, h⟩
  | some node =>
    obtain ⟨as, bs, i, hlist, hi⟩ := h.split hfp
    rw [LruStorage.tryInsert, hfp, h.find_item hlist hi]
    refine ⟨_, by simp only [Option.bind_eq_bind, Option.bind_some, h.deref_eq hlist]; rfl, ?_⟩
    exact h.rewrite (y := ⟨fp, now, value⟩) hlist hi rfl hnow hlatest

theorem entries_length (h : Holds header s items) : s.lruMap.entries.length = s.lruList.length := by
  have hperm : (s.lruMap.entries.map Sigma.snd).Perm (s.lruList.map Prod.fst) := by
    refine (List.perm_ext_iff_of_nodup ?_ h.nodes).mpr fun node => ?_
    · have hkeys : s.lruMap.entries.Nodup := List.NodupKeys.nodup s.lruMap.nodupKeys
      refine hkeys.map_on ?_
      rintro ⟨fp, node⟩ hx ⟨fp', node'⟩ hy rfl
      obtain ⟨i, hi, hfp⟩ := (h.map fp node).mp (AList.mem_lookup_iff.mpr hx)
      obtain ⟨j, hj, hfp'⟩ := (h.map fp' node).mp (AList.mem_lookup_iff.mpr hy)
      have hij := List.inj_on_of_nodup_map h.nodes hi hj rfl
      rw [← hfp, ← hfp', (Prod.mk.inj hij).2]
    · constructor
      · intro hnode
        obtain ⟨⟨fp, node'⟩, hx, rfl⟩ := List.mem_map.mp hnode
        obtain ⟨i, hi, -⟩ := (h.map fp node').mp (AList.mem_lookup_iff.mpr hx)
        exact List.mem_map_of_mem hi
      · intro hnode
        obtain ⟨⟨node', i⟩, hx, rfl⟩ := List.mem_map.mp hnode
        have := (h.map _ node').mpr ⟨i, hx, rfl⟩
        exact List.mem_map.mpr ⟨⟨_, node'⟩, AList.mem_lookup_iff.mp this, rfl⟩
  have := hperm.length_eq
  rwa [List.length_map, List.length_map] at this

theorem insert (h : Holds header s items) (hnow : now ≠ 0)
    (hlatest : ∀ x ∈ items, x.timestamp ≤ now) (fp : UInt64) (value : Vector UInt8 n) :
    ∃ s', s.insert now fp (some value) = some (true, s') ∧
      Holds header s' (⟨fp, now, value⟩ ::
        if (items.find? fun x => x.fp = fp).isSome then items.filter fun x => x.fp ≠ fp
        else if items.length < header.1 then items else items.dropLast) := by
  have hsize : s.file.items.length = header.1 := by rw [← h.header, h.sound.length]
  cases hfp : s.lruMap.lookup fp with
  | some node =>
    obtain ⟨as, bs, i, hlist, hi⟩ := h.split hfp
    rw [LruStorage.insert, hfp, h.find_item hlist hi]
    refine ⟨_, by simp only [Option.bind_eq_bind, Option.bind_some, h.deref_eq hlist]; rfl, ?_⟩
    exact h.rewrite (y := ⟨fp, now, value⟩) hlist hi rfl hnow hlatest
  | none =>
    have habsent := h.absent hfp
    have hlength : s.lruList.length = s.nextItem := by
      rw [← h.length_eq, h.eq_map, List.length_map]
    have hle := h.le
    have hsize' : s.file.size = header.1 := by rw [← h.header]
    rw [find?_of_forall_ne habsent]
    show ∃ s', _ ∧ Holds header s'
      (⟨fp, now, value⟩ :: if items.length < header.1 then items else items.dropLast)
    by_cases hfull : items.length < header.1
    · have hroom : ¬ (s.lruMap.entries.length ≥ s.file.size ∨ s.nextItem = s.file.items.length) := by
        rw [h.entries_length, hlength, ← h.length_eq]
        omega
      have hlt : s.nextItem < s.file.items.length := by
        rw [← h.length_eq]
        omega
      rw [if_pos hfull, LruStorage.insert, hfp]
      simp only [if_neg hroom, if_pos hlt]
      exact ⟨_, rfl, h.append (y := ⟨fp, now, value⟩) hlt hnow hlatest hfp⟩
    · have hroom : s.lruMap.entries.length ≥ s.file.size ∨ s.nextItem = s.file.items.length := by
        rw [h.entries_length, hlength, ← h.length_eq]
        omega
      have hpos : 0 < items.length := by
        have := h.sound.size
        omega
      obtain ⟨as, ⟨node, i⟩, hlist⟩ : ∃ as x, s.lruList = as ++ [x] :=
        (List.eq_nil_or_concat' s.lruList).resolve_left fun hnil => by
          rw [h.eq_map, hnil] at hpos
          exact Nat.lt_irrefl 0 hpos
      have hlast : s.lruList.getLast? = some (node, i) := by rw [hlist, List.getLast?_concat]
      have hrest : items.dropLast = (as ++ []).map (content s.file) := by
        rw [h.items_split hlist, List.map_nil, List.dropLast_concat, List.append_nil]
      have hsplice : ({ s with lruMap := s.lruMap.erase (s.file.item i).fp } :
          LruStorage n).spliceToFront node = { s with
            lruMap := s.lruMap.erase (s.file.item i).fp, lruList := (node, i) :: (as ++ []) } := by
        have hfind := h.find_eq hlist
        have hfilter : s.lruList.filter (fun x => x.1 ≠ node) = as ++ [] := by
          rw [hlist]
          exact filter_split (f := Prod.fst) (a := (node, i)) (k := node) rfl (h.node_ne hlist)
        simp only [LruStorage.spliceToFront, hfind, hfilter]
      rw [if_neg hfull, LruStorage.insert, hfp, hrest]
      simp only [if_pos hroom, hlast, Option.bind_eq_bind, Option.bind_some, hsplice]
      refine ⟨_, rfl, h.overwrite (y := ⟨fp, now, value⟩) hlist hnow hlatest fun fp' node' => ?_⟩
      show ((s.lruMap.erase (s.file.item i).fp).insert fp node).lookup fp' = some node' ↔
        fp = fp' ∧ node' = node ∨ ∃ j, (node', j) ∈ as ++ [] ∧ (s.file.item j).fp = fp'
      have hin : ∀ {x}, x ∈ as ++ [] → content s.file x ∈ items := fun hx => by
        rw [h.eq_map, hlist]
        refine List.mem_map_of_mem (List.mem_append_left _ ?_)
        rwa [List.append_nil] at hx
      rcases eq_or_ne fp' fp with rfl | hne
      · rw [AList.lookup_insert]
        refine ⟨fun hnode => Or.inl ⟨rfl, (Option.some.inj hnode).symm⟩, ?_⟩
        rintro (⟨-, rfl⟩ | ⟨j, hj, hj'⟩)
        · rfl
        · exact absurd hj' (habsent _ (hin hj))
      · rw [AList.lookup_insert_ne hne]
        have hleft : ¬ (fp = fp' ∧ node' = node) := fun hfp' => hne hfp'.1.symm
        rcases eq_or_ne fp' (s.file.item i).fp with rfl | hold
        · rw [AList.lookup_erase]
          refine ⟨fun hnone => (Option.some_ne_none _ hnone.symm).elim, ?_⟩
          rintro (hfp' | ⟨j, hj, hj'⟩)
          · exact absurd hfp' hleft
          · exact absurd hj' (h.fp_ne hlist _ hj)
        · rw [AList.lookup_erase_ne hold, h.map_of_fp hlist, or_iff_right hleft]
          exact or_iff_right fun hfp' => hold hfp'.1.symm

theorem delete (h : Holds header s items) (fp : UInt64) :
    ∃ s', s.delete fp = some (true, s') ∧ Holds header s' (items.filter fun x => x.fp ≠ fp) := by
  cases hfp : s.lruMap.lookup fp with
  | none =>
    rw [LruStorage.delete, hfp, filter_of_forall_ne (h.absent hfp)]
    exact ⟨s, rfl, h⟩
  | some node =>
    obtain ⟨as, bs, i, hlist, hi⟩ := h.split hfp
    obtain ⟨s', hdelete, h'⟩ := h.deleteNode hlist
    rw [hi] at hdelete
    rw [LruStorage.delete, hfp, h.filter_eq hlist hi]
    exact ⟨s', hdelete, h'⟩

theorem deleteLoop_eq {timestamp : UInt32} {fuel : Nat} (h : Holds header s items)
    (hfuel : items.length ≤ fuel) (deleted : Nat) :
    ∃ s', deleteLoop timestamp fuel deleted s =
        some (deleted + (items.filter fun x => x.timestamp < timestamp).length, s') ∧
      Holds header s' (items.filter fun x => timestamp ≤ x.timestamp) := by
  induction fuel generalizing s items deleted with
  | zero =>
    have hitems : items = [] := List.eq_nil_of_length_eq_zero (Nat.le_zero.mp hfuel)
    have hlist : s.lruList = [] := by
      have := h.eq_map
      rw [hitems] at this
      exact List.map_eq_nil_iff.mp this.symm
    rw [hitems] at h ⊢
    exact ⟨s, by rw [deleteLoop, if_pos hlist]; rfl, h⟩
  | succ fuel ih =>
    rcases List.eq_nil_or_concat' s.lruList with hlist | ⟨as, ⟨node, i⟩, hlist⟩
    · have hitems : items = [] := by rw [h.eq_map, hlist]; rfl
      rw [hitems] at h ⊢
      refine ⟨s, ?_, h⟩
      rw [deleteLoop, hlist]
      rfl
    · have hlast : s.lruList.getLast? = some (node, i) := by rw [hlist, List.getLast?_concat]
      have hitems := h.items_split hlist
      rw [List.map_nil] at hitems
      by_cases hstop : (s.file.item i).timestamp ≥ timestamp
      · have hall : ∀ x ∈ items, timestamp ≤ x.timestamp := by
          have hsorted := h.sorted
          rw [hitems, List.pairwise_append] at hsorted
          intro x hx
          rw [hitems] at hx
          rcases List.mem_append.mp hx with hx | hx
          · exact UInt32.le_trans hstop (hsorted.2.2 x hx _ List.mem_cons_self)
          · rw [List.mem_singleton.mp hx]
            exact hstop
        have hnone : items.filter (fun x => x.timestamp < timestamp) = [] :=
          List.filter_eq_nil_iff.mpr fun x hx => by
            rw [decide_eq_true_iff]
            exact UInt32.not_lt.mpr (hall x hx)
        rw [hnone, List.filter_eq_self.mpr fun x hx => decide_eq_true (hall x hx)]
        refine ⟨s, ?_, h⟩
        rw [deleteLoop, hlast]
        simp only [if_pos hstop]
        rfl
      · obtain ⟨s', hdelete, h'⟩ := h.deleteNode hlist
        rw [List.append_nil] at h'
        have hlen : (as.map (content s.file)).length ≤ fuel := by
          rw [hitems, List.length_append, List.length_singleton] at hfuel
          omega
        obtain ⟨s'', hloop, h''⟩ := ih h' hlen (deleted + 1)
        have hold : (s.file.item i).timestamp < timestamp := UInt32.not_le.mp hstop
        have htail : [s.file.item i].filter (fun x => x.timestamp < timestamp) =
            [s.file.item i] := List.filter_cons_of_pos (decide_eq_true hold)
        have htail' : [s.file.item i].filter (fun x => timestamp ≤ x.timestamp) = [] :=
          List.filter_cons_of_neg (by rw [decide_eq_true_iff]; exact hstop)
        rw [hitems, List.filter_append, List.filter_append, htail, htail', List.append_nil,
          List.length_append, List.length_singleton]
        refine ⟨s'', ?_, h''⟩
        rw [deleteLoop, hlast]
        simp only [if_neg hstop, hdelete, Option.bind_eq_bind, Option.bind_some, if_true]
        rw [hloop]
        congr 2
        omega

theorem deleteElementsBefore (h : Holds header s items) (timestamp : UInt32) :
    ∃ s', s.deleteElementsBefore timestamp =
        some ((items.filter fun x => x.timestamp < timestamp).length, s') ∧
      Holds header s' (items.filter fun x => timestamp ≤ x.timestamp) := by
  have hpos : s.file.items.length ≠ 0 := fun hzero => h.sound.size (Or.inl (h.sound.length ▸ hzero))
  have hlength : items.length ≤ s.lruList.length := by rw [h.eq_map, List.length_map]
  obtain ⟨s', hloop, h'⟩ := h.deleteLoop_eq hlength 0
  refine ⟨s', ?_, h'⟩
  rw [LruStorage.deleteElementsBefore, if_neg hpos, hloop, Nat.zero_add]

end Holds

end operations

end invariant

end LruStorage

end Mozkey.Storage
