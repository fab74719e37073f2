import Mozkey.Storage.LruCache

/-! What the operations of the cache do to its free list, to the list from `lru_head_` to
`lru_tail_`, and to the table that leads to the elements of that list. -/

namespace Mozkey.Storage

open Lib

namespace LruCache

section links

variable {κ ν : Type} {c c' : LruCache κ ν} {e y : Nat} {v : Option Nat} {before : Option Nat}

/-- The links of the elements and the ends of the LRU list. -/
def links (c : LruCache κ ν) : Links Nat where
  next := c.next
  prev := c.prev
  head := c.lruHead
  tail := c.lruTail

def entry (c : LruCache κ ν) (e : Nat) : Option (κ × ν) := 
  c.elements[e]?.bind fun x => some (x.key, x.value)

/-- Only links of elements, and the ends of the lists, differ. -/
structure Relinked (c c' : LruCache κ ν) : Prop where
  blocks : c'.toBlocks = c.toBlocks
  table : c'.table = c.table
  length : c'.elements.length = c.elements.length
  entry : c'.entry = c.entry

theorem Relinked.trans {c'' : LruCache κ ν} (h : Relinked c c') (h' : Relinked c' c'') :
    Relinked c c'' :=
  ⟨h'.blocks.trans h.blocks, h'.table.trans h.table, h'.length.trans h.length,
    h'.entry.trans h.entry⟩

theorem bind_modify {α β : Type} {xs : List α} {g : α → α} {f : α → Option β}
    (h : ∀ x, f (g x) = f x) : (xs.modify e g)[y]?.bind f = xs[y]?.bind f := by
  rw [List.getElem?_modify]
  cases xs[y]? with
  | none => rfl
  | some x =>
    show f (if e = y then g x else x) = f x
    split
    · exact h x
    · rfl

theorem bind_modify_update {α β : Type} {xs : List α} {g : α → α} {f : α → Option β}
    (he : e < xs.length) {v : Option β} (h : ∀ x, f (g x) = v) :
    (fun y => (xs.modify e g)[y]?.bind f) = Function.update (fun y => xs[y]?.bind f) e v := by
  refine funext fun y => ?_
  rw [List.getElem?_modify, Function.update_apply]
  rcases eq_or_ne y e with rfl | hne
  · rw [if_pos rfl, List.getElem?_eq_getElem he]
    show f (if y = y then g xs[y] else xs[y]) = v
    rw [if_pos rfl, h]
  · rw [if_neg hne]
    cases xs[y]? with
    | none => rfl
    | some x =>
      show f (if e = y then g x else x) = f x
      rw [if_neg hne.symm]

theorem bind_concat {α β : Type} (xs : List α) (x : α) (f : α → Option β) :
    (fun y => (xs ++ [x])[y]?.bind f) = Function.update (fun y => xs[y]?.bind f) xs.length (f x) := by
  refine funext fun y => ?_
  rw [Function.update_apply]
  rcases Nat.lt_trichotomy y xs.length with hlt | rfl | hgt
  · rw [if_neg hlt.ne, List.getElem?_append_left hlt]
  · rw [if_pos rfl, List.getElem?_concat_length]
    rfl
  · rw [if_neg hgt.ne', List.getElem?_eq_none hgt.le, List.getElem?_eq_none]
    rw [List.length_append, List.length_singleton]
    omega

theorem relinked_setNext : Relinked c (c.setNext e v) :=
  ⟨rfl, rfl, List.length_modify .., funext fun _ => bind_modify fun _ => rfl⟩

theorem relinked_setPrev : Relinked c (c.setPrev e v) :=
  ⟨rfl, rfl, List.length_modify .., funext fun _ => bind_modify fun _ => rfl⟩

theorem relinked_setNextOf : Relinked c (c.setNextOf before v) := by
  cases before with
  | none => exact ⟨rfl, rfl, rfl, rfl⟩
  | some p => exact relinked_setNext

theorem relinked_setPrevOf : Relinked c (c.setPrevOf before v) := by
  cases before with
  | none => exact ⟨rfl, rfl, rfl, rfl⟩
  | some p => exact relinked_setPrev

theorem next_setNext (he : e < c.elements.length) :
    (c.setNext e v).next = Function.update c.next e v :=
  bind_modify_update he fun _ => rfl

theorem prev_setPrev (he : e < c.elements.length) :
    (c.setPrev e v).prev = Function.update c.prev e v :=
  bind_modify_update he fun _ => rfl

@[simp] theorem prev_setNext : (c.setNext e v).prev = c.prev :=
  funext fun _ => bind_modify fun _ => rfl

@[simp] theorem next_setPrev : (c.setPrev e v).next = c.next :=
  funext fun _ => bind_modify fun _ => rfl

theorem next_setNextOf (h : ∀ p, before = some p → p < c.elements.length) :
    (c.setNextOf before v).next = Linked.setLink c.next before v := by
  cases before with
  | none => rfl
  | some p => exact next_setNext (h p rfl)

theorem prev_setPrevOf (h : ∀ p, before = some p → p < c.elements.length) :
    (c.setPrevOf before v).prev = Linked.setLink c.prev before v := by
  cases before with
  | none => rfl
  | some p => exact prev_setPrev (h p rfl)

@[simp] theorem prev_setNextOf : (c.setNextOf before v).prev = c.prev := by
  cases before with
  | none => rfl
  | some p => exact prev_setNext

@[simp] theorem next_setPrevOf : (c.setPrevOf before v).next = c.next := by
  cases before with
  | none => rfl
  | some p => exact next_setPrev

@[simp] theorem lruHead_setNextOf : (c.setNextOf before v).lruHead = c.lruHead := by
  cases before <;> rfl

@[simp] theorem lruHead_setPrevOf : (c.setPrevOf before v).lruHead = c.lruHead := by
  cases before <;> rfl

@[simp] theorem lruTail_setNextOf : (c.setNextOf before v).lruTail = c.lruTail := by
  cases before <;> rfl

@[simp] theorem lruTail_setPrevOf : (c.setPrevOf before v).lruTail = c.lruTail := by
  cases before <;> rfl

@[simp] theorem freeList_setNextOf : (c.setNextOf before v).freeList = c.freeList := by
  cases before <;> rfl

@[simp] theorem freeList_setPrevOf : (c.setPrevOf before v).freeList = c.freeList := by
  cases before <;> rfl

theorem relinked_removeFromLRU : Relinked c (c.removeFromLRU e) := by
  have hends : ∀ head tail, Relinked c { c with lruHead := head, lruTail := tail } :=
    fun _ _ => ⟨rfl, rfl, rfl, rfl⟩
  exact ((((hends _ _).trans relinked_setNextOf).trans relinked_setPrevOf).trans
    relinked_setPrev).trans relinked_setNext

@[simp] theorem freeList_removeFromLRU : (c.removeFromLRU e).freeList = c.freeList := by
  simp [removeFromLRU, setNext, setPrev]

theorem links_removeFromLRU (he : e < c.elements.length)
    (hprev : ∀ p, c.prev e = some p → p < c.elements.length ∧ p ≠ e)
    (hnext : ∀ n, c.next e = some n → n < c.elements.length) :
    (c.removeFromLRU e).links = c.links.remove e := by
  obtain ⟨c₁, hc₁⟩ : ∃ c₁, c₁ = { c with
      lruHead := if c.lruHead = some e then c.next e else c.lruHead
      lruTail := if c.lruTail = some e then c.prev e else c.lruTail } := ⟨_, rfl⟩
  have hp : c₁.prev = c.prev := by rw [hc₁]; rfl
  have hn : c₁.next = c.next := by rw [hc₁]; rfl
  have hlength : c₁.elements.length = c.elements.length := by rw [hc₁]
  obtain ⟨c₂, hc₂⟩ : ∃ c₂, c₂ = c₁.setNextOf (c₁.prev e) (c₁.next e) := ⟨_, rfl⟩
  have hn₂ : c₂.next = Linked.setLink c.next (c.prev e) (c.next e) := by
    rw [hc₂, hp, hn, next_setNextOf, hn]
    exact fun p h => hlength ▸ (hprev p h).1
  have hp₂ : c₂.prev = c.prev := by rw [hc₂, prev_setNextOf, hp]
  have hl₂ : c₂.elements.length = c.elements.length := by
    rw [hc₂, relinked_setNextOf.length, hlength]
  have hself : c₂.next e = c.next e := by
    rw [hn₂]
    exact Linked.setLink_of_notMem _ fun p h => (hprev p h).2
  obtain ⟨c₃, hc₃⟩ : ∃ c₃, c₃ = c₂.setPrevOf (c₂.next e) (c₂.prev e) := ⟨_, rfl⟩
  have hp₃ : c₃.prev = Linked.setLink c.prev (c.next e) (c.prev e) := by
    rw [hc₃, hself, hp₂, prev_setPrevOf, hp₂]
    exact fun n h => hl₂ ▸ hnext n h
  have hn₃ : c₃.next = Linked.setLink c.next (c.prev e) (c.next e) := by
    rw [hc₃, next_setPrevOf, hn₂]
  have hl₃ : c₃.elements.length = c.elements.length := by
    rw [hc₃, relinked_setPrevOf.length, hl₂]
  have heq : c.removeFromLRU e = (c₃.setPrev e none).setNext e none := by
    rw [hc₃, hc₂, hc₁]
    rfl
  have hhead : c₃.lruHead = if c.lruHead = some e then c.next e else c.lruHead := by
    rw [hc₃, lruHead_setPrevOf, hc₂, lruHead_setNextOf, hc₁]
  have htail : c₃.lruTail = if c.lruTail = some e then c.prev e else c.lruTail := by
    rw [hc₃, lruTail_setPrevOf, hc₂, lruTail_setNextOf, hc₁]
  rw [heq, links, Links.remove, Links.mk.injEq]
  refine ⟨?_, ?_, hhead, htail⟩
  · rw [next_setNext (by rw [relinked_setPrev.length, hl₃]; exact he), next_setPrev, hn₃]
    rfl
  · rw [prev_setNext, prev_setPrev (hl₃ ▸ he), hp₃]
    rfl

theorem relinked_pushLRUHead : Relinked c (c.pushLRUHead e) := by
  rw [pushLRUHead]
  split
  · exact ⟨rfl, rfl, rfl, rfl⟩
  · have hends : ∀ (c : LruCache κ ν) head tail,
        Relinked c { c with lruHead := head, lruTail := tail } := fun _ _ _ => ⟨rfl, rfl, rfl, rfl⟩
    exact ((relinked_removeFromLRU.trans relinked_setNext).trans
      ((hends _ _ _).trans relinked_setPrevOf)).trans (hends _ _ _)

theorem freeList_pushLRUHead : (c.pushLRUHead e).freeList = c.freeList := by
  rw [pushLRUHead]
  split
  · rfl
  · simp [setNext]

theorem links_pushLRUHead (he : e < c.elements.length) (hhead : c.lruHead ≠ some e)
    (hin : ∀ h, (c.removeFromLRU e).lruHead = some h → h < c.elements.length)
    (hremove : (c.removeFromLRU e).links = c.links.remove e) :
    (c.pushLRUHead e).links = (c.links.remove e).pushFront e := by
  obtain ⟨c₁, hc₁⟩ : ∃ c₁, c₁ = c.removeFromLRU e := ⟨_, rfl⟩
  have hl₁ : c₁.elements.length = c.elements.length := hc₁ ▸ relinked_removeFromLRU.length
  obtain ⟨c₂, hc₂⟩ : ∃ c₂, c₂ = { c₁.setNext e c₁.lruHead with lruHead := some e } := ⟨_, rfl⟩
  have hn₂ : c₂.next = Function.update c₁.next e c₁.lruHead := by
    rw [hc₂]
    exact next_setNext (hl₁ ▸ he)
  have hp₂ : c₂.prev = c₁.prev := by
    rw [hc₂]
    exact prev_setNext
  have hl₂ : c₂.elements.length = c.elements.length := by
    rw [hc₂, ← hl₁]
    exact relinked_setNext.length
  have hself : c₂.next e = c₁.lruHead := by rw [hn₂, Function.update_self]
  have heq : c.pushLRUHead e = { c₂.setPrevOf (c₂.next e) (some e) with
      lruTail := if c₁.lruTail = none then some e else c₁.lruTail } := by
    rw [pushLRUHead, if_neg hhead]
    have htail : (c₂.setPrevOf (c₂.next e) (some e)).lruTail = c₁.lruTail := by
      rw [lruTail_setPrevOf, hc₂]
      rfl
    rw [← htail, hc₂, hc₁]
  rw [← hremove, ← hc₁, heq, links, Links.pushFront, Links.mk.injEq]
  refine ⟨?_, ?_, ?_, rfl⟩
  · exact next_setPrevOf.trans hn₂
  · rw [hself]
    refine (prev_setPrevOf fun h hh => ?_).trans (by rw [hp₂]; rfl)
    rw [hl₂]
    exact hin h (hc₁ ▸ hh)
  · rw [lruHead_setPrevOf, hc₂]

theorem next_pushFreeList (he : e < c.elements.length) :
    (c.pushFreeList e).next = Function.update c.next e c.freeList := by
  have hnext : (c.pushFreeList e).next = ((c.setPrev e none).setNext e c.freeList).next := rfl
  rw [hnext, next_setNext (by rw [relinked_setPrev.length]; exact he), next_setPrev]

theorem prev_pushFreeList (he : e < c.elements.length) :
    (c.pushFreeList e).prev = Function.update c.prev e none := by
  have hprev : (c.pushFreeList e).prev = ((c.setPrev e none).setNext e c.freeList).prev := rfl
  rw [hprev, prev_setNext, prev_setPrev he]

theorem relinked_pushFreeList : Relinked c (c.pushFreeList e) := by
  have hfree : ∀ (c : LruCache κ ν) v, Relinked c { c with freeList := v } :=
    fun _ _ => ⟨rfl, rfl, rfl, rfl⟩
  exact (relinked_setPrev.trans relinked_setNext).trans (hfree _ _)

theorem removeFromLRU_links {as bs : List Nat} (h : c.links.Holds (as ++ e :: bs))
    (hin : ∀ y ∈ as ++ e :: bs, y < c.elements.length) :
    (c.removeFromLRU e).links = c.links.remove e := by
  refine links_removeFromLRU (hin e (by simp)) (fun p hp => ?_) fun n hn => ?_
  · have hp' : as.getLast? = some p := h.prev_eq ▸ hp
    have hmem := List.mem_of_getLast? hp'
    refine ⟨hin p (List.mem_append_left _ hmem), ?_⟩
    rintro rfl
    exact (List.nodup_append.mp h.nodup).2.2 p hmem p List.mem_cons_self rfl
  · have hn' : bs.head? = some n := h.next_eq ▸ hn
    exact hin n (List.mem_append_right _ (List.mem_cons_of_mem e (List.mem_of_head? hn')))

theorem pushLRUHead_links {lru : List Nat} (hhead : c.lruHead ≠ some e) (he : e < c.elements.length)
    (hremove : (c.removeFromLRU e).links = c.links.remove e) (h : (c.links.remove e).Holds lru)
    (hnotMem : e ∉ lru) (hin : ∀ y ∈ lru, y < c.elements.length) :
    (c.pushLRUHead e).links.Holds (e :: lru) ∧
      ∀ y, y ∉ e :: lru → (c.pushLRUHead e).next y = (c.links.remove e).next y ∧
        (c.pushLRUHead e).prev y = (c.links.remove e).prev y := by
  have hlinks : (c.pushLRUHead e).links = (c.links.remove e).pushFront e := by
    refine links_pushLRUHead he hhead (fun y hy => hin y ?_) hremove
    refine h.mem_of_head ?_
    rw [← hremove]
    exact hy
  have hclear : (c.links.remove e).prev e = none := Function.update_self _ _ _
  refine ⟨hlinks ▸ h.pushFront hnotMem hclear, fun y hy => ⟨?_, ?_⟩⟩
  · refine (congrFun (congrArg Links.next hlinks) y).trans (Links.pushFront_next ?_)
    exact fun hye => hy (hye ▸ List.mem_cons_self)
  · refine (congrFun (congrArg Links.prev hlinks) y).trans (h.pushFront_prev ?_)
    exact fun hmem => hy (List.mem_cons_of_mem e hmem)

theorem clearLoop_eq {start : Option Nat} {xs free : List Nat} {fuel : Nat}
    (hfuel : xs.length ≤ fuel)
    (hxs : Linked c.next start xs) (hfree : Linked c.next c.freeList free)
    (hnodup : (xs ++ free).Nodup) (hin : ∀ y ∈ xs, y < c.elements.length)
    (hprev : ∀ y ∈ free, c.prev y = none) :
    ∃ c', clearLoop fuel start (start.bind c.next) c = some c' ∧
      Linked c'.next c'.freeList (xs.reverse ++ free) ∧
      (∀ y ∈ xs.reverse ++ free, c'.prev y = none) ∧ Relinked c c' := by
  induction xs generalizing start fuel c free with
  | nil =>
    have hstart : start = none := hxs
    rw [hstart]
    refine ⟨c, by rw [clearLoop], hfree, hprev, ⟨rfl, rfl, rfl, rfl⟩⟩
  | cons x xs ih =>
    obtain ⟨hx, hnodup⟩ := List.nodup_cons.mp hnodup
    obtain ⟨fuel, rfl⟩ : ∃ n, fuel = n + 1 :=
      Nat.exists_eq_succ_of_ne_zero (Nat.ne_of_gt (Nat.lt_of_lt_of_le (Nat.succ_pos _) hfuel))
    have hlt : x < c.elements.length := hin x List.mem_cons_self
    have hnext' := next_pushFreeList hlt
    have hprev' := prev_pushFreeList hlt
    have hsame : Relinked c (c.pushFreeList x) := relinked_pushFreeList
    have hrest : Linked (c.pushFreeList x).next (c.next x) xs := by
      rw [hnext']
      exact hxs.2.update_of_notMem (fun hmem => hx (List.mem_append_left _ hmem)) _
    have hpushed : Linked (c.pushFreeList x).next (c.pushFreeList x).freeList (x :: free) := by
      rw [hnext']
      exact hfree.cons fun hmem => hx (List.mem_append_right _ hmem)
    obtain ⟨c', hloop, hlinked, hcleared, hsame'⟩ := ih
      (Nat.le_of_succ_le_succ hfuel) hrest hpushed
      (List.nodup_middle.mpr (List.nodup_cons.mpr ⟨hx, hnodup⟩))
      (fun y hy => hsame.length ▸ hin y (List.mem_cons_of_mem x hy)) fun y hy => by
        rw [hprev']
        rcases eq_or_ne y x with rfl | hne
        · exact Function.update_self _ _ _
        · rw [Function.update_of_ne hne]
          exact hprev y ((List.mem_cons.mp hy).resolve_left hne)
    rw [List.reverse_cons, List.append_assoc, List.singleton_append]
    refine ⟨c', ?_, hlinked, hcleared, hsame.trans hsame'⟩
    rw [hxs.1, clearLoop]
    exact hloop

end links

section lists

variable {κ ν : Type} [DecidableEq κ] {c c' : LruCache κ ν} {e : Nat} {key : κ}
  {lru free held as bs : List Nat}

/-- The LRU list and the free list of a cache, and the elements `held` that an operation has taken
from both; the table leads to the elements of the LRU list. -/
structure Lists (c : LruCache κ ν) (lru free held : List Nat) : Prop where
  holds : c.links.Holds lru
  linked : Linked c.next c.freeList free
  cleared : ∀ e ∈ free ++ held, c.prev e = none
  detached : ∀ e ∈ held, c.next e = none
  perm : (lru ++ (free ++ held)).Perm (List.range c.elements.length)
  table : ∀ key e, c.table.lookup key = some e ↔ e ∈ lru ∧ (c.entry e).map Prod.fst = some key

namespace Lists

theorem nodup (h : Lists c lru free held) : (lru ++ (free ++ held)).Nodup :=
  h.perm.nodup_iff.mpr List.nodup_range

theorem lt_length (h : Lists c lru free held) (he : e ∈ lru ++ (free ++ held)) :
    e < c.elements.length := List.mem_range.mp (h.perm.mem_iff.mp he)

theorem notMem_lru (h : Lists c lru free held) (he : e ∈ free ++ held) : e ∉ lru :=
  fun hlru => (List.nodup_append.mp h.nodup).2.2 e hlru e he rfl

theorem entry_isSome (h : Lists c lru free held) (he : e ∈ lru ++ (free ++ held)) :
    ∃ x, c.elements[e]? = some x ∧ c.entry e = some (x.key, x.value) := by
  have hx := List.getElem?_eq_getElem (h.lt_length he)
  exact ⟨_, hx, by rw [entry, hx]; rfl⟩

end Lists

theorem Lists.evict (h : Lists c (as ++ e :: bs) free held) :
    ∃ c', c.evict (some e) = some (true, c') ∧ Lists c' (as ++ bs) (e :: free) held ∧
      c'.toBlocks = c.toBlocks ∧ c'.entry = c.entry ∧ c'.elements.length = c.elements.length := by
  obtain ⟨x, hx, hentry⟩ := h.entry_isSome (e := e) (by simp)
  have hkey : c.table.lookup x.key = some e := (h.table x.key e).mpr ⟨by simp, by rw [hentry]; rfl⟩
  obtain ⟨c₁, hc₁⟩ : ∃ c₁ : LruCache κ ν, c₁ = { c with table := c.table.erase x.key } := ⟨_, rfl⟩
  obtain ⟨c₂, hc₂⟩ : ∃ c₂, c₂ = c₁.removeFromLRU e := ⟨_, rfl⟩
  have hevict : c.evict (some e) = some (true, c₂.pushFreeList e) := by
    simp [LruCache.evict, hx, hkey, hc₂, hc₁]
  have hlinks : c₂.links = c.links.remove e := by
    have hin : ∀ y ∈ as ++ e :: bs, y < c.elements.length := fun y hy =>
      h.lt_length (List.mem_append_left _ hy)
    rw [hc₂, hc₁]
    exact removeFromLRU_links (c := { c with table := c.table.erase x.key }) h.holds hin
  have hsame : Relinked c₁ c₂ := hc₂ ▸ relinked_removeFromLRU
  have hlength : c₂.elements.length = c.elements.length := by rw [hsame.length, hc₁]
  have he : e < c₂.elements.length := hlength ▸ h.lt_length (by simp)
  have hpush : Relinked c₂ (c₂.pushFreeList e) := relinked_pushFreeList
  have hnext : c₂.next = (c.links.remove e).next := congrArg Links.next hlinks
  have hprev : c₂.prev = (c.links.remove e).prev := congrArg Links.prev hlinks
  have hnext' := next_pushFreeList he
  have hprev' := prev_pushFreeList he
  have hfree : c₂.freeList = c.freeList := by
    rw [hc₂, freeList_removeFromLRU, hc₁]
  have hmiddle := List.nodup_middle.mp h.holds.nodup
  have hentry' : (c₂.pushFreeList e).entry = c.entry := by
    rw [hpush.entry, hsame.entry, hc₁]
    rfl
  have hne : ∀ {y}, y ∈ as ++ bs → y ≠ e := fun hy hye =>
    (List.nodup_cons.mp hmiddle).1 (hye ▸ hy)
  have hout : ∀ {y}, y ∈ free ++ held → y ∉ as ++ e :: bs := fun hy => h.notMem_lru hy
  refine ⟨_, hevict, ⟨?_, ?_, ?_, ?_, ?_, ?_⟩, ?_, hentry', hpush.length.trans hlength⟩
  · refine h.holds.remove.congr (fun y hy => ?_) (fun y hy => ?_) (congrArg Links.head hlinks :)
      (congrArg Links.tail hlinks :)
    · exact (congrFun hnext' y).trans ((Function.update_of_ne (hne hy) _ _).trans
        (congrFun hnext y))
    · exact (congrFun hprev' y).trans ((Function.update_of_ne (hne hy) _ _).trans
        (congrFun hprev y))
  · have hlinked : Linked c₂.next c.freeList free := by
      refine h.linked.congr fun y hy => ?_
      rw [hnext]
      exact h.holds.remove_next (hout (List.mem_append_left _ hy))
    rw [hnext', hfree]
    refine hlinked.cons fun hfree => hout (List.mem_append_left _ hfree) (by simp)
  · intro y hy
    rw [hprev']
    rcases eq_or_ne y e with rfl | hye
    · exact Function.update_self _ _ _
    · have hy' : y ∈ free ++ held := (List.mem_cons.mp hy).resolve_left hye
      rw [Function.update_of_ne hye, hprev, h.holds.remove_prev (hout hy')]
      exact h.cleared y hy'
  · intro y hy
    have hy' : y ∈ free ++ held := List.mem_append_right _ hy
    have hye : y ≠ e := fun hye => hout hy' (hye ▸ by simp)
    rw [hnext', Function.update_of_ne hye, hnext, h.holds.remove_next (hout hy')]
    exact h.detached y hy
  · rw [hpush.length, hlength]
    refine List.Perm.trans ?_ h.perm
    rw [List.append_assoc, List.append_assoc, List.cons_append, List.cons_append]
    exact List.Perm.append_left as List.perm_middle
  · intro k y
    rw [hentry', hpush.table, hsame.table, hc₁]
    rcases eq_or_ne k x.key with rfl | hk
    · rw [AList.lookup_erase]
      refine ⟨fun hnone => (Option.some_ne_none y hnone.symm).elim, ?_⟩
      rintro ⟨hy, hy'⟩
      have hye := (h.table x.key y).mpr
        ⟨((List.mem_append.mp hy).elim (List.mem_append_left _)
          fun hb => List.mem_append_right _ (List.mem_cons_of_mem e hb)), hy'⟩
      rw [hkey] at hye
      exact absurd (Option.some.inj hye).symm (hne hy)
    · rw [AList.lookup_erase_ne hk, h.table k y]
      have hye : (c.entry y).map Prod.fst = some k → y ≠ e := by
        rintro hy rfl
        rw [hentry] at hy
        exact hk (Option.some.inj hy).symm
      constructor
      · rintro ⟨hy, hy'⟩
        refine ⟨?_, hy'⟩
        rcases List.mem_append.mp hy with ha | hb
        · exact List.mem_append_left _ ha
        · exact List.mem_append_right _ ((List.mem_cons.mp hb).resolve_left (hye hy'))
      · rintro ⟨hy, hy'⟩
        refine ⟨?_, hy'⟩
        rcases List.mem_append.mp hy with ha | hb
        · exact List.mem_append_left _ ha
        · exact List.mem_append_right _ (List.mem_cons_of_mem e hb)
  · rw [hpush.blocks, hsame.blocks, hc₁]

theorem Lists.popFreeList_nil (h : Lists c lru [] held) : c.popFreeList = some (none, c) := by
  have hfree : c.freeList = none := h.linked
  rw [popFreeList, hfree]

theorem Lists.popFreeList_cons (h : Lists c lru (e :: free) []) :
    ∃ c', c.popFreeList = some (some e, c') ∧ Lists c' lru free [e] ∧ Relinked c c' := by
  have hfree : c.freeList = some e := h.linked.1
  obtain ⟨c₁, hc₁⟩ : ∃ c₁ : LruCache κ ν, c₁ = { c with freeList := c.next e } := ⟨_, rfl⟩
  obtain ⟨c₂, hc₂⟩ : ∃ c₂, c₂ = c₁.setPrevOf c₁.freeList none := ⟨_, rfl⟩
  have hpop : c.popFreeList = some (some e, c₂.setNext e none) := by
    have hclear : c.prev e = none := h.cleared e (by simp)
    simp [popFreeList, hfree, hclear, hc₂, hc₁]
  have hsame₁ : Relinked c c₁ := hc₁ ▸ ⟨rfl, rfl, rfl, rfl⟩
  have hsame₂ : Relinked c c₂ := hsame₁.trans (hc₂ ▸ relinked_setPrevOf)
  have hsame : Relinked c (c₂.setNext e none) := hsame₂.trans relinked_setNext
  have hhead : ∀ p, c.next e = some p → p ∈ free := fun p hp => by
    rw [h.linked.2.start_eq] at hp
    exact List.mem_of_head? hp
  have hprev : (c₂.setNext e none).prev = c.prev := by
    have hin : ∀ p, c₁.freeList = some p → p < c₁.elements.length := by
      rw [hc₁]
      exact fun p hp => h.lt_length (by simp [hhead p hp])
    rw [prev_setNext, hc₂, prev_setPrevOf hin, hc₁]
    show Linked.setLink c.prev (c.next e) none = c.prev
    cases hnext : c.next e with
    | none => rfl
    | some p => exact Function.update_eq_self_iff.mpr (h.cleared p (by simp [hhead p hnext])).symm
  have hnext : (c₂.setNext e none).next = Function.update c.next e none := by
    rw [next_setNext (hsame₂.length ▸ h.lt_length (by simp)), hc₂, next_setPrevOf, hc₁]
    rfl
  have hnodup := (List.nodup_append.mp h.nodup).2.1
  rw [List.append_nil, List.nodup_cons] at hnodup
  refine ⟨_, hpop, ⟨?_, ?_, ?_, ?_, ?_, ?_⟩, hsame⟩
  · refine h.holds.congr (fun y hy => ?_) (fun y _ => congrFun hprev y) ?_ ?_
    · have hye : y ≠ e := fun hye => h.notMem_lru (e := e) (by simp) (hye ▸ hy)
      exact (congrFun hnext y).trans (Function.update_of_ne hye _ _)
    · show c₂.lruHead = c.lruHead
      rw [hc₂, lruHead_setPrevOf, hc₁]
    · show c₂.lruTail = c.lruTail
      rw [hc₂, lruTail_setPrevOf, hc₁]
  · have hstart : (c₂.setNext e none).freeList = c.next e := by
      show c₂.freeList = c.next e
      rw [hc₂, freeList_setPrevOf, hc₁]
    rw [hstart, hnext]
    exact h.linked.2.update_of_notMem hnodup.1 none
  · intro y hy
    rw [hprev]
    refine h.cleared y ?_
    rw [List.append_nil]
    exact (List.perm_append_singleton e free).mem_iff.mp hy
  · intro y hy
    rw [List.mem_singleton.mp hy, hnext]
    exact Function.update_self _ _ _
  · rw [hsame.length]
    refine List.Perm.trans (List.Perm.append_left lru ?_) h.perm
    rw [List.append_nil]
    exact List.perm_append_singleton e free
  · rw [hsame.table, hsame.entry]
    exact h.table

section

variable [Inhabited κ] [Inhabited ν]

theorem Lists.addElements (h : Lists c lru free []) (n : Nat) :
    ∃ fresh, fresh.length = n ∧ Lists (addElements n c) lru (fresh ++ free) [] ∧
      (addElements n c).toBlocks = c.toBlocks ∧
      (addElements n c).elements.length = c.elements.length + n ∧
      ∀ y ∈ lru, (addElements n c).entry y = c.entry y := by
  induction n generalizing c free with
  | zero => exact ⟨[], rfl, h, rfl, rfl, fun _ _ => rfl⟩
  | succ n ih =>
    obtain ⟨x, hx⟩ : ∃ x : Element κ ν, x = ⟨c.freeList, none, default, default⟩ := ⟨_, rfl⟩
    obtain ⟨c₁, hc₁⟩ : ∃ c₁ : LruCache κ ν, c₁ = { c with
      elements := c.elements ++ [x], freeList := some c.elements.length } := ⟨_, rfl⟩
    have hadd : LruCache.addElements (n + 1) c = LruCache.addElements n c₁ := by
      rw [hc₁, hx]
      rfl
    have hnext : c₁.next = Function.update c.next c.elements.length c.freeList := by
      rw [hc₁]
      exact (bind_concat _ _ _).trans (by rw [hx]; rfl)
    have hprev : c₁.prev = Function.update c.prev c.elements.length none := by
      rw [hc₁]
      exact (bind_concat _ _ _).trans (by rw [hx]; rfl)
    have hlength : c₁.elements.length = c.elements.length + 1 := by
      rw [hc₁, List.length_append, List.length_singleton]
    have hlt : ∀ {y}, y ∈ lru ++ (free ++ []) → y ≠ c.elements.length := fun hy =>
      (h.lt_length hy).ne
    have hentry : ∀ y ∈ lru, c₁.entry y = c.entry y := by
      intro y hy
      rw [hc₁]
      exact (congrFun (bind_concat _ _ _) y).trans
        (Function.update_of_ne (hlt (List.mem_append_left _ hy)) _ _)
    have hlists : Lists c₁ lru (c.elements.length :: free) [] := by
      refine ⟨?_, ?_, ?_, fun _ hy => (List.not_mem_nil hy).elim, ?_, ?_⟩
      · refine h.holds.congr (fun y hy => ?_) (fun y hy => ?_) (by rw [hc₁]; rfl) (by rw [hc₁]; rfl)
        · exact (congrFun hnext y).trans
            (Function.update_of_ne (hlt (List.mem_append_left _ hy)) _ _)
        · exact (congrFun hprev y).trans
            (Function.update_of_ne (hlt (List.mem_append_left _ hy)) _ _)
      · have hfree : c₁.freeList = some c.elements.length := by rw [hc₁]
        rw [hfree, hnext]
        exact h.linked.cons fun hmem => hlt (by simp [hmem]) rfl
      · intro y hy
        rw [hprev]
        rcases eq_or_ne y c.elements.length with rfl | hne
        · exact Function.update_self _ _ _
        · rw [Function.update_of_ne hne]
          exact h.cleared y ((List.mem_cons.mp hy).resolve_left hne)
      · rw [hlength, List.range_succ]
        refine List.Perm.trans ?_ (List.Perm.append_right [c.elements.length] h.perm)
        rw [List.append_nil, List.append_nil]
        exact List.perm_middle.trans (List.perm_append_singleton _ _).symm
      · intro k y
        have htable : c₁.table = c.table := by rw [hc₁]
        rw [htable, h.table k y]
        refine and_congr_right fun hy => ?_
        rw [hentry y hy]
    obtain ⟨fresh, hfresh, hlists', hblocks, hlen, hentry'⟩ := ih hlists
    rw [hadd]
    refine ⟨fresh ++ [c.elements.length], ?_, ?_, hblocks.trans (by rw [hc₁]), ?_, ?_⟩
    · rw [List.length_append, hfresh, List.length_singleton]
    · rw [List.append_assoc, List.singleton_append]
      exact hlists'
    · rw [hlen, hlength]
      omega
    · exact fun y hy => (hentry' y hy).trans (hentry y hy)

end

theorem Lists.touch (h : Lists c (as ++ e :: bs) free []) :
    Lists (c.pushLRUHead e) (e :: (as ++ bs)) free [] := by
  have hsame : Relinked c (c.pushLRUHead e) := relinked_pushLRUHead
  by_cases hhead : c.lruHead = some e
  · have has : as = [] := by
      cases as with
      | nil => rfl
      | cons a as =>
        have ha : a = e := Option.some.inj (h.holds.forward.1.symm.trans hhead)
        exact absurd (by simp [ha]) (List.nodup_cons.mp h.holds.nodup).1
    rw [pushLRUHead, if_pos hhead, has]
    rwa [has] at h
  · have hin : ∀ y ∈ as ++ e :: bs, y < c.elements.length := fun y hy =>
      h.lt_length (List.mem_append_left _ hy)
    have hnodup := List.nodup_cons.mp (List.nodup_middle.mp h.holds.nodup)
    have hsub : ∀ y ∈ e :: (as ++ bs), y ∈ as ++ e :: bs := fun y hy =>
      List.perm_middle.mem_iff.mpr hy
    obtain ⟨hholds, hout⟩ := pushLRUHead_links hhead (hin e (by simp))
      (removeFromLRU_links h.holds hin) h.holds.remove hnodup.1
      fun y hy => hin y (hsub y (List.mem_cons_of_mem e hy))
    have hfree : ∀ y ∈ free, y ∉ as ++ e :: bs := fun y hy => h.notMem_lru (by simp [hy])
    have hkeep : ∀ y ∈ free, (c.pushLRUHead e).next y = c.next y ∧
        (c.pushLRUHead e).prev y = c.prev y := by
      intro y hy
      obtain ⟨hnext, hprev⟩ := hout y fun hmem => hfree y hy (hsub y hmem)
      exact ⟨hnext.trans (h.holds.remove_next (hfree y hy)),
        hprev.trans (h.holds.remove_prev (hfree y hy))⟩
    refine ⟨hholds, ?_, ?_, fun _ hy => (List.not_mem_nil hy).elim, ?_, ?_⟩
    · rw [freeList_pushLRUHead]
      exact h.linked.congr fun y hy => (hkeep y hy).1
    · intro y hy
      rw [List.append_nil] at hy
      exact (hkeep y hy).2.trans (h.cleared y (by simp [hy]))
    · rw [hsame.length]
      exact (List.Perm.append_right _ List.perm_middle.symm).trans h.perm
    · intro k y
      rw [hsame.table, hsame.entry, h.table k y, List.perm_middle.mem_iff]

theorem Lists.push (h : Lists c lru free [e]) (hkey : c.table.lookup key = none) :
    ∃ c', c' = { c.setKey e key with table := c.table.insert key e }.pushLRUHead e ∧
      Lists c' (e :: lru) free [] ∧ c'.toBlocks = c.toBlocks ∧
      c'.elements.length = c.elements.length ∧ (c'.entry e).map Prod.fst = some key ∧
      ∀ y ∈ lru, c'.entry y = c.entry y := by
  obtain ⟨c₁, hc₁⟩ : ∃ c₁ : LruCache κ ν,
      c₁ = { c.setKey e key with table := c.table.insert key e } := ⟨_, rfl⟩
  have hnext : c₁.next = c.next := by
    rw [hc₁]
    exact funext fun y => bind_modify fun _ => rfl
  have hprev : c₁.prev = c.prev := by
    rw [hc₁]
    exact funext fun y => bind_modify fun _ => rfl
  have hlinks : c₁.links = c.links := by
    rw [links, links, hnext, hprev, hc₁]
    rfl
  have hlength : c₁.elements.length = c.elements.length := by
    rw [hc₁]
    exact List.length_modify ..
  have he : e < c.elements.length := h.lt_length (by simp)
  have hmem : e ∉ lru := h.notMem_lru (by simp)
  have hentry : ∀ y, y ≠ e → c₁.entry y = c.entry y := by
    intro y hye
    rw [hc₁]
    show ((c.elements.modify e fun x => { x with key })[y]?.bind fun x => some (x.key, x.value)) = _
    rw [List.getElem?_modify, entry]
    cases c.elements[y]? with
    | none => rfl
    | some x =>
      show ((fun a : Element κ ν => some (a.key, a.value)) (if e = y then { x with key } else x)) = _
      rw [if_neg hye.symm]
      rfl
  have hself : (c₁.entry e).map Prod.fst = some key := by
    rw [hc₁]
    show ((c.elements.modify e fun x => { x with key })[e]?.bind
      fun x => some (x.key, x.value)).map Prod.fst = _
    rw [List.getElem?_modify, List.getElem?_eq_getElem he]
    show ((fun a : Element κ ν => some (a.key, a.value))
      (if e = e then { c.elements[e] with key } else c.elements[e])).map Prod.fst = _
    rw [if_pos rfl]
    rfl
  have hcleared : (c.links.next e = none) ∧ c.links.prev e = none :=
    ⟨h.detached e (by simp), h.cleared e (by simp)⟩
  have hhead : c.links.head ≠ some e := fun hhead => hmem (h.holds.mem_of_head hhead)
  have htail : c.links.tail ≠ some e := fun htail => hmem (h.holds.mem_of_tail htail)
  have hkeep : c.links.remove e = c.links :=
    Links.remove_of_cleared hhead htail hcleared.1 hcleared.2
  have hremove : (c₁.removeFromLRU e).links = c₁.links.remove e := by
    refine links_removeFromLRU (hlength ▸ he) (fun p hp => ?_) fun n hn => ?_
    · rw [hprev] at hp
      exact absurd (hcleared.2.symm.trans hp) (Option.some_ne_none p).symm
    · rw [hnext] at hn
      exact absurd (hcleared.1.symm.trans hn) (Option.some_ne_none n).symm
  have hin : ∀ y ∈ lru, y < c₁.elements.length := fun y hy =>
    hlength ▸ h.lt_length (List.mem_append_left _ hy)
  have hhead₁ : c₁.lruHead ≠ some e := by
    rw [hc₁]
    exact hhead
  have hkeep₁ : c₁.links.remove e = c.links := by rw [hlinks, hkeep]
  have hremoved : (c₁.links.remove e).Holds lru := hkeep₁ ▸ h.holds
  obtain ⟨hholds, hout⟩ := pushLRUHead_links hhead₁ (hlength ▸ he) hremove hremoved hmem hin
  rw [hkeep₁] at hout
  have hsame : Relinked c₁ (c₁.pushLRUHead e) := relinked_pushLRUHead
  have hnodup := h.nodup
  have hfree : ∀ y ∈ free, y ∉ e :: lru := by
    intro y hy hmem'
    rcases List.mem_cons.mp hmem' with rfl | hlru
    · exact (List.nodup_append.mp (List.nodup_append.mp hnodup).2.1).2.2 y hy y
        List.mem_cons_self rfl
    · exact h.notMem_lru (by simp [hy]) hlru
  refine ⟨c₁.pushLRUHead e, by rw [hc₁], ⟨hholds, ?_, ?_, fun _ hy => (List.not_mem_nil hy).elim,
    ?_, ?_⟩, by rw [hsame.blocks, hc₁]; rfl, by rw [hsame.length, hlength],
    by rw [hsame.entry, hself], ?_⟩
  · have hstart : (c₁.pushLRUHead e).freeList = c.freeList := by
      rw [freeList_pushLRUHead, hc₁]
      rfl
    rw [hstart]
    exact h.linked.congr fun y hy => (hout y (hfree y hy)).1
  · intro y hy
    rw [List.append_nil] at hy
    exact (hout y (hfree y hy)).2.trans (h.cleared y (by simp [hy]))
  · rw [hsame.length, hlength]
    refine List.Perm.trans ?_ h.perm
    rw [List.append_nil, ← List.append_assoc]
    exact (List.perm_append_singleton e (lru ++ free)).symm
  · intro k y
    have htable : c₁.table = c.table.insert key e := by rw [hc₁]
    rw [hsame.table, hsame.entry, htable]
    rcases eq_or_ne k key with rfl | hk
    · rw [AList.lookup_insert]
      constructor
      · intro hye
        rw [← Option.some.inj hye]
        exact ⟨List.mem_cons_self, hself⟩
      · rintro ⟨hy, hy'⟩
        by_contra hne
        have hye : y ≠ e := fun hye => hne (hye ▸ rfl)
        rw [hentry y hye] at hy'
        have hlook := (h.table k y).mpr ⟨(List.mem_cons.mp hy).resolve_left hye, hy'⟩
        exact Option.some_ne_none y (hlook.symm.trans hkey)
    · rw [AList.lookup_insert_ne hk, h.table k y]
      have hye : (c₁.entry y).map Prod.fst = some k → y ≠ e := by
        rintro hy rfl
        rw [hself] at hy
        exact hk (Option.some.inj hy).symm
      constructor
      · rintro ⟨hy, hy'⟩
        refine ⟨List.mem_cons_of_mem e hy, ?_⟩
        rwa [hentry y (ne_of_mem_of_not_mem hy hmem)]
      · rintro ⟨hy, hy'⟩
        refine ⟨(List.mem_cons.mp hy).resolve_left (hye hy'), ?_⟩
        rwa [hentry y (hye hy')] at hy'
  · intro y hy
    rw [hsame.entry, hentry y (ne_of_mem_of_not_mem hy hmem)]

theorem Lists.setValue (h : Lists c lru free []) (e : Nat) (v : ν) :
    Lists (c.setValue e v) lru free [] ∧ (c.setValue e v).toBlocks = c.toBlocks ∧
      (c.setValue e v).elements.length = c.elements.length ∧
      (c.setValue e v).entry e = (c.entry e).map (fun x => (x.1, v)) ∧
      ∀ y, y ≠ e → (c.setValue e v).entry y = c.entry y := by
  have hnext : (c.setValue e v).next = c.next := funext fun y => bind_modify fun _ => rfl
  have hprev : (c.setValue e v).prev = c.prev := funext fun y => bind_modify fun _ => rfl
  have hlength : (c.setValue e v).elements.length = c.elements.length := List.length_modify ..
  have hentry : ∀ y, (c.setValue e v).entry y =
      if e = y then (c.entry y).map (fun x => (x.1, v)) else c.entry y := by
    intro y
    show ((c.elements.modify e fun x => { x with value := v })[y]?.bind
      fun x => some (x.key, x.value)) = _
    rw [List.getElem?_modify, entry]
    cases c.elements[y]? with
    | none => split <;> rfl
    | some x =>
      show ((fun a : Element κ ν => some (a.key, a.value))
        (if e = y then { x with value := v } else x)) = _
      split <;> rfl
  have hkey : ∀ y, ((c.setValue e v).entry y).map Prod.fst = (c.entry y).map Prod.fst := by
    intro y
    rw [hentry]
    split
    · rw [Option.map_map]
      rfl
    · rfl
  refine ⟨⟨?_, ?_, ?_, ?_, ?_, ?_⟩, rfl, hlength, by rw [hentry, if_pos rfl],
    fun y hy => by rw [hentry, if_neg hy.symm]⟩
  · exact h.holds.congr (fun y _ => congrFun hnext y) (fun y _ => congrFun hprev y) rfl rfl
  · rw [hnext]
    exact h.linked
  · rw [hprev]
    exact h.cleared
  · rw [hnext]
    exact h.detached
  · rw [hlength]
    exact h.perm
  · intro k y
    rw [hkey]
    exact h.table k y

theorem Lists.clear (h : Lists c lru free []) :
    ∃ c', c.clear = some c' ∧ Lists c' [] (lru.reverse ++ free) [] ∧ c'.toBlocks = c.toBlocks ∧
      c'.elements.length = c.elements.length := by
  obtain ⟨c₁, hc₁⟩ : ∃ c₁ : LruCache κ ν, c₁ = { c with table := ∅ } := ⟨_, rfl⟩
  have hnodup := h.nodup
  rw [List.append_nil] at hnodup
  have hperm := h.perm.length_eq
  rw [List.length_append, List.length_range] at hperm
  have hfuel : lru.length ≤ c.elements.length := by omega
  have hforward : Linked c₁.next c.lruHead lru := by
    rw [hc₁]
    exact h.holds.forward
  have hfree : Linked c₁.next c₁.freeList free := by
    rw [hc₁]
    exact h.linked
  have hin : ∀ y ∈ lru, y < c₁.elements.length := by
    rw [hc₁]
    exact fun y hy => h.lt_length (List.mem_append_left _ hy)
  have hprev : ∀ y ∈ free, c₁.prev y = none := by
    rw [hc₁]
    exact fun y hy => h.cleared y (by simp [hy])
  obtain ⟨c', hloop, hlinked, hcleared, hsame⟩ :=
    clearLoop_eq hfuel hforward hfree hnodup hin hprev
  have hlength : c'.elements.length = c.elements.length := by rw [hsame.length, hc₁]
  have hclear : c.clear = some { c' with lruHead := none, lruTail := none } := by
    rw [hc₁] at hloop
    rw [LruCache.clear]
    exact congrArg (fun r : Option (LruCache κ ν) => do
      let c ← r
      some { c with lruHead := none, lruTail := none }) hloop
  refine ⟨_, hclear, ⟨⟨rfl, rfl, List.nodup_nil⟩, hlinked, ?_,
    fun _ hy => (List.not_mem_nil hy).elim, ?_, ?_⟩, by rw [hsame.blocks, hc₁], hlength⟩
  · intro y hy
    rw [List.append_nil] at hy
    exact hcleared y hy
  · show ([] ++ (lru.reverse ++ free ++ [])).Perm (List.range c'.elements.length)
    rw [hlength, List.nil_append, List.append_nil]
    refine List.Perm.trans (List.Perm.append_right free (List.reverse_perm lru)) ?_
    have := h.perm
    rwa [List.append_nil] at this
  · intro k y
    have htable : c'.table = ∅ := by rw [hsame.table, hc₁]
    show c'.table.lookup k = some y ↔ _
    rw [htable, AList.lookup_empty]
    exact ⟨fun hnone => (Option.some_ne_none y hnone.symm).elim,
      fun hmem => (List.not_mem_nil hmem.1).elim⟩

end lists

end LruCache

end Mozkey.Storage
