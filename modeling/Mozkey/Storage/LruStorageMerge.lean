import Mozkey.Storage.LruStorageItems

/-! `LruStorage::Merge`: all items of two storages, sorted by their timestamps, go back to the first
one, without those whose fingerprint came before and as many as it has slots. -/

namespace Mozkey.Storage

open Lib

namespace LruStorage

/-- `CompareByTimeStamp`, as the order in which a stable sort leaves two items as they are. -/
abbrev NotOlder {n : Nat} (x y : Item n) : Prop := y.timestamp ≤ x.timestamp

def mergeLoop {n : Nat} : List (Item n) → List UInt64 → List (Item n)
  | [], _ => []
  | x :: ary, seen =>
    if x.fp ∈ seen then mergeLoop ary seen else x :: mergeLoop ary (x.fp :: seen)

def mergeItems {n : Nat} (own other : List (Item n)) : List (Item n) :=
  let ary := (own ++ other).insertionSort NotOlder
  let buf := mergeLoop ary []
  let newSize := min buf.length own.length
  buf.take newSize ++ List.replicate (own.length - newSize) (Item.zero n)

def merge {n m : Nat} (s : LruStorage n) (storage : LruStorage m) : Bool × LruStorage n :=
  if h : m = n then
    if s.file.seed ≠ storage.file.seed then (false, s)
    else
      let file := { s.file with items := mergeItems s.file.items (h ▸ storage.file.items) }
      match openFile file with
      | some s => (true, s)
      | none => (false, { s with file })
  else (false, s)

def mergeFile {n m : Nat} (s : LruStorage n) (file : StorageFile m) : Bool × LruStorage n :=
  match openFile file with
  | some storage => s.merge storage
  | none => (false, s)

variable {n m : Nat}

instance : Std.Total (NotOlder (n := n)) :=
  ⟨fun x y => UInt32.le_total y.timestamp x.timestamp⟩

instance : IsTrans (Item n) NotOlder := ⟨fun _ _ _ hxy hyz => UInt32.le_trans hyz hxy⟩

section loop

variable {ary as bs : List (Item n)} {seen : List UInt64} {x : Item n}

theorem mergeLoop_sublist (ary : List (Item n)) (seen : List UInt64) :
    (mergeLoop ary seen).Sublist ary := by
  induction ary generalizing seen with
  | nil => exact List.Sublist.refl _
  | cons x ary ih =>
    rw [mergeLoop]
    split
    · exact (ih seen).cons x
    · exact (ih (x.fp :: seen)).cons_cons x

theorem mem_mergeLoop : x ∈ mergeLoop ary seen ↔
    x.fp ∉ seen ∧ ary.find? (fun y => y.fp = x.fp) = some x := by
  induction ary generalizing seen with
  | nil => simp [mergeLoop]
  | cons y ary ih =>
    rw [mergeLoop, find?_cons_key]
    by_cases hyx : y.fp = x.fp
    · rw [if_pos hyx]
      split
      · rename_i hy
        rw [ih]
        exact ⟨fun h => absurd (hyx ▸ hy) h.1, fun h => absurd (hyx ▸ hy) h.1⟩
      · rename_i hy
        rw [List.mem_cons, ih]
        constructor
        · rintro (rfl | ⟨hx, -⟩)
          · exact ⟨hy, rfl⟩
          · exact absurd (hyx ▸ List.mem_cons_self) hx
        · rintro ⟨-, heq⟩
          exact Or.inl (Option.some.inj heq).symm
    · have hne : x ≠ y := fun h => hyx (h ▸ rfl)
      rw [if_neg hyx]
      split
      · exact ih
      · rw [List.mem_cons, ih, List.mem_cons, or_iff_right hne, or_iff_right (Ne.symm hyx)]

theorem nodup_mergeLoop (ary : List (Item n)) (seen : List UInt64) :
    ((mergeLoop ary seen).map Item.fp).Nodup := by
  induction ary generalizing seen with
  | nil => exact List.nodup_nil
  | cons x ary ih =>
    rw [mergeLoop]
    split
    · exact ih seen
    · rw [List.map_cons, List.nodup_cons]
      refine ⟨fun hmem => ?_, ih _⟩
      obtain ⟨y, hy, heq⟩ := List.mem_map.mp hmem
      exact (mem_mergeLoop.mp hy).1 (heq ▸ List.mem_cons_self)

end loop

section items

variable {own other xs ys : List (Item n)} {x : Item n}

/-- The items that have been written, which a sorted list has before all others. -/
def written (xs : List (Item n)) : List (Item n) := xs.filter fun x => x.timestamp ≠ 0

theorem mem_written : x ∈ written xs ↔ x ∈ xs ∧ x.timestamp ≠ 0 := by
  rw [written, List.mem_filter, decide_eq_true_iff]

theorem written_append_unwritten (h : xs.Pairwise NotOlder) :
    xs = written xs ++ xs.filter fun x => x.timestamp = 0 := by
  induction xs with
  | nil => rfl
  | cons x xs ih =>
    obtain ⟨hx, hxs⟩ := List.pairwise_cons.mp h
    by_cases hzero : x.timestamp = 0
    · have hall : ∀ y ∈ x :: xs, y.timestamp = 0 := by
        rintro y (_ | ⟨_, hy⟩)
        · exact hzero
        · exact UInt32.le_zero_iff.mp (hzero ▸ hx y hy)
      have hnil : written (x :: xs) = [] := List.filter_eq_nil_iff.mpr fun y hy => by
        simpa using hall y hy
      rw [hnil, List.nil_append, List.filter_eq_self.mpr fun y hy => decide_eq_true (hall y hy)]
    · rw [written, List.filter_cons_of_pos (by simpa using hzero),
        List.filter_cons_of_neg (by simpa using hzero), List.cons_append]
      exact congrArg (x :: ·) (ih hxs)

/-- The item of a fingerprint that no item of the other storage replaces: one of `own` if none of
`other` is newer, one of `other` if it is newer. -/
def Newest (own other : List (Item n)) (x : Item n) : Prop :=
  x ∈ own ∧ (∀ y ∈ other, y.fp = x.fp → y.timestamp ≤ x.timestamp) ∨
    x ∈ other ∧ ∀ y ∈ own, y.fp = x.fp → y.timestamp < x.timestamp

theorem filter_key_eq_toList {fp : UInt64} (h : (xs.map Item.fp).Nodup) :
    xs.filter (fun x => x.fp = fp) = (xs.find? fun x => x.fp = fp).toList := by
  induction xs with
  | nil => rfl
  | cons x xs ih =>
    rw [List.map_cons, List.nodup_cons] at h
    rw [List.filter_cons, find?_cons_key]
    by_cases hx : x.fp = fp
    · have hnil : xs.filter (fun x => x.fp = fp) = [] := by
        rw [ih h.2, find?_of_forall_ne fun y hy heq => h.1 (List.mem_map.mpr ⟨y, hy, by rw [heq, hx]⟩)]
        rfl
      rw [if_pos (decide_eq_true hx), if_pos hx, hnil]
      rfl
    · rw [if_neg (by simpa using hx), if_neg hx, ih h.2]

theorem find?_insertionSort (hown : (own.map Item.fp).Nodup) (hother : (other.map Item.fp).Nodup) :
    ((own ++ other).insertionSort NotOlder).find? (fun y => y.fp = x.fp) = some x ↔
      Newest own other x := by
  have hhead : ((own ++ other).insertionSort NotOlder).find? (fun y => y.fp = x.fp) =
      (((own.find? fun y => y.fp = x.fp).toList ++
        (other.find? fun y => y.fp = x.fp).toList).insertionSort NotOlder).head? := by
    rw [← List.head?_filter, filter_insertionSort, List.filter_append, filter_key_eq_toList hown,
      filter_key_eq_toList hother]
  have hmem : ∀ y, y ∈ own ∧ y.fp = x.fp ↔ own.find? (fun y => y.fp = x.fp) = some y := fun y =>
    (find?_eq_some_iff_mem hown).symm
  have hmem' : ∀ y, y ∈ other ∧ y.fp = x.fp ↔ other.find? (fun y => y.fp = x.fp) = some y :=
    fun y => (find?_eq_some_iff_mem hother).symm
  have hnewest : Newest own other x ↔
      own.find? (fun y => y.fp = x.fp) = some x ∧
        (∀ y, other.find? (fun y => y.fp = x.fp) = some y → y.timestamp ≤ x.timestamp) ∨
      other.find? (fun y => y.fp = x.fp) = some x ∧
        ∀ y, own.find? (fun y => y.fp = x.fp) = some y → y.timestamp < x.timestamp := by
    simp only [← hmem, ← hmem', Newest, and_imp, and_true]
  rw [hhead, hnewest]
  cases own.find? (fun y => y.fp = x.fp) with
  | none =>
    cases other.find? (fun y => y.fp = x.fp) with
    | none => simp
    | some b => simp
  | some a =>
    cases other.find? (fun y => y.fp = x.fp) with
    | none => simp
    | some b =>
      by_cases hab : b.timestamp ≤ a.timestamp
      · have hnot : ¬ (b = x ∧ a.timestamp < x.timestamp) := by
          rintro ⟨rfl, hlt⟩
          exact UInt32.not_le.mpr hlt hab
        have hle : a = x ↔ a = x ∧ b.timestamp ≤ x.timestamp :=
          ⟨fun heq => ⟨heq, heq ▸ hab⟩, And.left⟩
        simp [hab, hnot, ← hle]
      · have hnot : ¬ (a = x ∧ b.timestamp ≤ x.timestamp) := by
          rintro ⟨rfl, hle⟩
          exact hab hle
        have hlt : b = x ↔ b = x ∧ a.timestamp < x.timestamp :=
          ⟨fun heq => ⟨heq, heq ▸ UInt32.not_le.mp hab⟩, And.left⟩
        simp [List.orderedInsert, hab, hnot, ← hlt]

def mergedItems (own other : List (Item n)) : List (Item n) :=
  written (mergeLoop ((own ++ other).insertionSort NotOlder) [])

theorem mem_mergedItems (hown : ((written own).map Item.fp).Nodup)
    (hother : ((written other).map Item.fp).Nodup) :
    x ∈ mergedItems own other ↔ Newest (written own) (written other) x := by
  obtain ⟨sorted, hsorted⟩ : ∃ sorted, sorted = (own ++ other).insertionSort NotOlder := ⟨_, rfl⟩
  have hwritten : written sorted = (written own ++ written other).insertionSort NotOlder := by
    rw [hsorted, written, filter_insertionSort, List.filter_append]
    rfl
  have hsplit := written_append_unwritten (hsorted ▸ List.pairwise_insertionSort NotOlder _)
  rw [mergedItems, mem_written, mem_mergeLoop, ← find?_insertionSort hown hother, ← hwritten,
    ← hsorted]
  constructor
  · rintro ⟨⟨-, hfind⟩, hused⟩
    rw [hsplit, List.find?_append, Option.or_eq_some_iff] at hfind
    refine hfind.resolve_right fun h => hused ?_
    exact of_decide_eq_true (List.mem_filter.mp (List.mem_of_find?_eq_some h.2)).2
  · intro hfind
    refine ⟨⟨List.not_mem_nil, ?_⟩, (mem_written.mp (List.mem_of_find?_eq_some hfind)).2⟩
    rw [hsplit, List.find?_append, hfind]
    rfl

theorem sorted_mergedItems (own other : List (Item n)) :
    (mergedItems own other).Pairwise NotOlder :=
  List.Pairwise.sublist (List.filter_sublist.trans (mergeLoop_sublist _ _))
    (List.pairwise_insertionSort NotOlder _)

theorem nodup_mergedItems (own other : List (Item n)) :
    ((mergedItems own other).map Item.fp).Nodup :=
  (nodup_mergeLoop _ []).sublist (List.filter_sublist.map Item.fp)

theorem mergeItems_eq (hzero : ∀ x ∈ own ++ other, x.timestamp = 0 → x = Item.zero n) :
    mergeItems own other = (mergedItems own other).take own.length ++
      List.replicate (own.length - (mergedItems own other).length) (Item.zero n) := by
  obtain ⟨buf, hbuf⟩ : ∃ buf, buf = mergeLoop ((own ++ other).insertionSort NotOlder) [] := ⟨_, rfl⟩
  have hsub : buf.Sublist ((own ++ other).insertionSort NotOlder) := hbuf ▸ mergeLoop_sublist _ _
  have hsplit := written_append_unwritten
    ((List.pairwise_insertionSort NotOlder (own ++ other)).sublist hsub)
  obtain ⟨k, hk⟩ : ∃ k, buf.filter (fun x => x.timestamp = 0) = List.replicate k (Item.zero n) := by
    refine ⟨_, List.eq_replicate_iff.mpr ⟨rfl, fun x hx => ?_⟩⟩
    obtain ⟨hx, hx0⟩ := List.mem_filter.mp hx
    exact hzero x ((List.mem_insertionSort _).mp (hsub.mem hx)) (of_decide_eq_true hx0)
  have hmerged : mergedItems own other = written buf := by rw [mergedItems, hbuf]
  rw [hk, ← hmerged] at hsplit
  rw [mergeItems, ← hbuf]
  simp only [hsplit]
  rw [List.take_append, List.take_replicate, List.append_assoc, List.replicate_append_replicate,
    List.length_append, List.length_replicate]
  congr 1
  · rcases Nat.le_total own.length (mergedItems own other).length with hle | hle
    · congr 1
      omega
    · rw [List.take_of_length_le hle, List.take_of_length_le (by omega)]
  · congr 1
    omega

end items

section merge

variable {header header' : Nat × UInt32} {s : LruStorage n} {items items' : List (Item n)}

namespace Holds

theorem items_eq (h : Holds header s items) : s.file.items =
    (List.range s.nextItem).map s.file.item ++
      List.replicate (s.file.items.length - s.nextItem) (Item.zero n) := by
  have hle := h.le
  refine List.ext_getElem? fun i => ?_
  rw [List.getElem?_append, List.length_map, List.length_range, List.getElem?_map]
  have hitem : ∀ {j}, j < s.file.items.length → s.file.items[j]? = some (s.file.item j) := by
    intro j hj
    rw [StorageFile.item, List.getD_eq_getElem _ _ hj, List.getElem?_eq_getElem hj]
  by_cases hi : i < s.nextItem
  · rw [if_pos hi, List.getElem?_range hi, hitem (by omega)]
    rfl
  · rw [if_neg hi, List.getElem?_replicate]
    split
    · rw [hitem (by omega), h.zero i (by omega)]
    · rw [List.getElem?_eq_none (by omega)]

theorem written_perm (h : Holds header s items) : (written s.file.items).Perm items := by
  have hwritten : written s.file.items = (List.range s.nextItem).map s.file.item := by
    rw [written, h.items_eq, List.filter_append, List.filter_eq_self.mpr,
      List.filter_eq_nil_iff.mpr, List.append_nil]
    · intro x hx
      rw [List.eq_of_mem_replicate hx]
      simp [Item.zero]
    · intro x hx
      obtain ⟨i, hi, rfl⟩ := List.mem_map.mp hx
      exact decide_eq_true (h.used_of_lt (List.mem_range.mp hi))
  rw [hwritten]
  exact h.items_perm.symm

theorem eq_zero (h : Holds header s items) {x : Item n} (hx : x ∈ s.file.items)
    (hzero : x.timestamp = 0) : x = Item.zero n := by
  rw [h.items_eq, List.mem_append] at hx
  rcases hx with hx | hx
  · obtain ⟨i, hi, rfl⟩ := List.mem_map.mp hx
    exact absurd hzero (h.used_of_lt (List.mem_range.mp hi))
  · exact List.eq_of_mem_replicate hx

theorem written_nodup (h : Holds header s items) : ((written s.file.items).map Item.fp).Nodup :=
  (h.written_perm.map Item.fp).nodup_iff.mpr h.fps_nodup

end Holds

theorem openFile_replicate {file : StorageFile n} {xs : List (Item n)} {k : Nat}
    (hsound : file.Sound) (hitems : file.items = xs ++ List.replicate k (Item.zero n))
    (hused : ∀ x ∈ xs, x.timestamp ≠ 0) (hfps : (xs.map Item.fp).Nodup) :
    ∃ s items, openFile file = some s ∧ Holds (file.size, file.seed) s items ∧ items.Perm xs := by
  have hitem : ∀ i, file.item i = if h : i < xs.length then xs[i] else Item.zero n := by
    intro i
    rw [StorageFile.item, hitems, List.getD_eq_getElem?_getD, List.getElem?_append]
    split
    · rename_i hi
      rw [List.getElem?_eq_getElem hi]
      rfl
    · exact List.getElem?_getD_replicate_default_eq _ _ _
  have hmap : (List.range xs.length).map file.item = xs := by
    refine List.ext_getElem (by rw [List.length_map, List.length_range]) fun i hi hi' => ?_
    rw [List.getElem_map, List.getElem_range, hitem, dif_pos hi']
  obtain ⟨s, items, hopen, h, hperm⟩ := @openFile_eq _ file hsound xs.length
    (by rw [hitems, List.length_append]; omega)
    (fun i hi => by
      rw [Used, hitem, dif_pos hi]
      exact hused _ (List.getElem_mem hi))
    (fun i hi => by rw [hitem, dif_neg (Nat.not_lt.mpr hi)])
    (by
      have := hfps
      rwa [← hmap, List.map_map] at this)
  exact ⟨s, items, hopen, h, hmap ▸ hperm⟩

/-- A merge of storages with the same value size and seed holds, for each fingerprint, the newest
item, and of these the most recent ones when not all have a slot. -/
theorem merge_keeps_newest (s : LruStorage n) :
    (∀ m (storage : LruStorage m), m ≠ n ∨ s.file.seed ≠ storage.file.seed →
      s.merge storage = (false, s)) ∧
    ∀ (storage : LruStorage n) header header' items items', Holds header s items →
      Holds header' storage items' → header.2 = header'.2 →
      ∃ s' merged dropped, s.merge storage = (true, s') ∧ Holds header s' merged ∧
        (merged ++ dropped).Nodup ∧ (∀ x, x ∈ merged ++ dropped ↔ Newest items items' x) ∧
        (dropped ≠ [] → merged.length = header.1) ∧
        ∀ x ∈ merged, ∀ y ∈ dropped, y.timestamp ≤ x.timestamp := by
  refine ⟨fun m storage hdiffer => ?_, fun storage header header' items items' h h' hseed => ?_⟩
  · by_cases hm : m = n
    · rw [merge, dif_pos hm, if_pos (hdiffer.resolve_left (not_not.mpr hm))]
    · rw [merge, dif_neg hm]
  obtain ⟨best, hbest⟩ : ∃ best, best = mergedItems s.file.items storage.file.items := ⟨_, rfl⟩
  obtain ⟨file, hfile⟩ : ∃ file : StorageFile n, file =
      { s.file with items := mergeItems s.file.items storage.file.items } := ⟨_, rfl⟩
  have hitems : file.items = best.take s.file.items.length ++
      List.replicate (s.file.items.length - best.length) (Item.zero n) := by
    rw [hfile, hbest]
    refine mergeItems_eq fun x hx => ?_
    rcases List.mem_append.mp hx with hx | hx
    · exact h.eq_zero hx
    · exact h'.eq_zero hx
  have hlength : file.items.length = s.file.items.length := by
    rw [hitems, List.length_append, List.length_take, List.length_replicate]
    omega
  have hsound : file.Sound := by
    refine ⟨h.sound.aligned, h.sound.value, ?_, ?_⟩
    · rw [hfile]
      exact h.sound.size
    · rw [hlength, hfile]
      exact h.sound.length
  have hnodup : (best.map Item.fp).Nodup := hbest ▸ nodup_mergedItems _ _
  have hmem : ∀ x, x ∈ best ↔ Newest items items' x := by
    intro x
    rw [hbest, mem_mergedItems h.written_nodup h'.written_nodup, Newest, Newest]
    simp only [h.written_perm.mem_iff, h'.written_perm.mem_iff]
  have hused : ∀ x ∈ best, x.timestamp ≠ 0 := fun x hx => (mem_written.mp (hbest ▸ hx)).2
  obtain ⟨s', merged, hopen, hmerged, hperm⟩ := openFile_replicate hsound hitems
    (fun x hx => hused x (List.mem_of_mem_take hx))
    (hnodup.sublist ((List.take_sublist _ _).map Item.fp))
  have hheader : (file.size, file.seed) = header := by rw [hfile, ← h.header]
  have hperm' : (merged ++ best.drop s.file.items.length).Perm best := by
    have happend := hperm.append_right (best.drop s.file.items.length)
    rwa [List.take_append_drop] at happend
  refine ⟨s', merged, best.drop s.file.items.length, ?_, hheader ▸ hmerged, ?_, ?_, ?_, ?_⟩
  · have hseed' : ¬ s.file.seed ≠ storage.file.seed := by
      rw [← h.header, ← h'.header] at hseed
      exact not_not.mpr hseed
    rw [merge, dif_pos rfl, if_neg hseed', ← hfile]
    simp only [hopen]
  · exact hperm'.nodup_iff.mpr (List.Nodup.of_map _ hnodup)
  · intro x
    rw [hperm'.mem_iff, hmem]
  · intro hdropped
    have hlt : s.file.items.length < best.length := by
      by_contra hle
      exact hdropped (List.drop_of_length_le (Nat.not_lt.mp hle))
    rw [hperm.length_eq, List.length_take, ← h.header, ← h.sound.length]
    omega
  · have hsorted := sorted_mergedItems s.file.items storage.file.items
    rw [← hbest, ← List.take_append_drop s.file.items.length best, List.pairwise_append] at hsorted
    exact fun x hx y hy => hsorted.2.2 x (hperm.mem_iff.mp hx) y hy

/-- A storage with one slot and an item that the other storage has with a later timestamp, beside
an older one. -/
theorem merge_keeps_newest_one_slot : ∃ (s storage : LruStorage 4) (items items' : List (Item 4)),
    openFile ⟨1, 7, [⟨5, 3, Vector.replicate 4 1⟩]⟩ = some s ∧
    openFile ⟨2, 7, [⟨5, 4, Vector.replicate 4 2⟩, ⟨6, 2, Vector.replicate 4 3⟩]⟩ = some storage ∧
    ∃ s' merged dropped, s.merge storage = (true, s') ∧ Holds (1, 7) s' merged ∧
      (merged ++ dropped).Nodup ∧ (∀ x, x ∈ merged ++ dropped ↔ Newest items items' x) ∧
      (dropped ≠ [] → merged.length = 1) ∧
      ∀ x ∈ merged, ∀ y ∈ dropped, y.timestamp ≤ x.timestamp := by
  obtain ⟨s, items, hs, h, -⟩ := @openFile_replicate 4
    ⟨1, 7, [⟨5, 3, Vector.replicate 4 1⟩]⟩ [⟨5, 3, Vector.replicate 4 1⟩] 0
    ⟨rfl, by decide, by decide, rfl⟩ rfl (by decide) (by decide)
  obtain ⟨storage, items', hstorage, h', -⟩ := @openFile_replicate 4
    ⟨2, 7, [⟨5, 4, Vector.replicate 4 2⟩, ⟨6, 2, Vector.replicate 4 3⟩]⟩
    [⟨5, 4, Vector.replicate 4 2⟩, ⟨6, 2, Vector.replicate 4 3⟩] 0
    ⟨rfl, by decide, by decide, rfl⟩ rfl (by decide) (by decide)
  exact ⟨s, storage, items, items', hs, hstorage,
    (merge_keeps_newest s).2 storage (1, 7) (2, 7) items items' h h' rfl⟩

end merge

end LruStorage

end Mozkey.Storage
