import Mathlib

/-! Intrusive linked lists.  Cells of a type `ι` hold a link to the next cell, and in a doubly
linked list also one to the cell before; the links are functions from the cells, and a write is a
`Function.update`. -/

namespace Mozkey.Lib

variable {ι : Type*} {link : ι → Option ι} {start : Option ι} {x y : ι} {xs as bs : List ι}

/-- The links lead from `start` along the cells `xs` and end there. -/
def Linked (link : ι → Option ι) : Option ι → List ι → Prop
  | start, [] => start = none
  | start, x :: xs => start = some x ∧ Linked link (link x) xs

namespace Linked

theorem start_eq (h : Linked link start xs) : start = xs.head? := by
  cases xs with
  | nil => exact h
  | cons x xs => exact h.1

theorem congr {link' : ι → Option ι} (h : Linked link start xs)
    (hlink : ∀ x ∈ xs, link' x = link x) : Linked link' start xs := by
  induction xs generalizing start with
  | nil => exact h
  | cons x xs ih =>
    refine ⟨h.1, ?_⟩
    rw [hlink x List.mem_cons_self]
    exact ih h.2 fun y hy => hlink y (List.mem_cons_of_mem x hy)

theorem drop (h : Linked link start (as ++ x :: bs)) : Linked link (link x) bs := by
  induction as generalizing start with
  | nil => exact h.2
  | cons a as ih => exact ih h.2

theorem link_eq (h : Linked link start (as ++ x :: bs)) : link x = bs.head? := h.drop.start_eq

variable [DecidableEq ι]

theorem update_of_notMem (h : Linked link start xs) (hx : x ∉ xs) (v : Option ι) :
    Linked (Function.update link x v) start xs :=
  h.congr fun _ hy => Function.update_of_ne (ne_of_mem_of_not_mem hy hx) v link

theorem cons (h : Linked link start xs) (hx : x ∉ xs) :
    Linked (Function.update link x start) (some x) (x :: xs) := by
  refine ⟨rfl, ?_⟩
  rw [Function.update_self]
  exact h.update_of_notMem hx start

/-- The link of the cell `before`, where there is one, is set to `v`. -/
def setLink (link : ι → Option ι) (before : Option ι) (v : Option ι) : ι → Option ι :=
  match before with
  | some p => Function.update link p v
  | none => link

theorem setLink_of_notMem {before : Option ι} (v : Option ι) (h : ∀ p, before = some p → p ≠ y) :
    setLink link before v y = link y := by
  cases before with
  | none => rfl
  | some p => exact Function.update_of_ne (h p rfl).symm v link

theorem remove (h : Linked link start (as ++ x :: bs)) (hnodup : (as ++ x :: bs).Nodup) :
    Linked (setLink link as.getLast? (link x)) (if start = some x then link x else start)
      (as ++ bs) := by
  induction as generalizing start with
  | nil =>
    rw [if_pos h.1]
    exact h.2
  | cons a as ih =>
    obtain ⟨ha, hnodup⟩ := List.nodup_cons.mp hnodup
    have hax : a ≠ x := fun hax => ha (hax ▸ by simp)
    have hstart : start ≠ some x := fun hx => hax (Option.some.inj (h.1.symm.trans hx))
    rw [if_neg hstart]
    refine ⟨h.1, ?_⟩
    rcases List.eq_nil_or_concat' as with rfl | ⟨as', p, rfl⟩
    · have hlink : setLink link [a].getLast? (link x) a = link x := Function.update_self a _ _
      rw [hlink]
      exact h.2.2.update_of_notMem (fun hmem => ha (List.mem_cons_of_mem x hmem)) _
    · have hpa : p ≠ a := fun hpa => ha (hpa ▸ by simp)
      have hlast : (a :: (as' ++ [p])).getLast? = (as' ++ [p]).getLast? := by
        rw [← List.cons_append, List.getLast?_concat, List.getLast?_concat]
      have hnext : link a ≠ some x := by
        intro hx
        have hhead := h.2.start_eq
        rw [hx] at hhead
        have hmem : x ∈ as' ++ [p] := by
          cases as' with
          | nil => exact List.mem_singleton.mpr (Option.some.inj hhead)
          | cons b as' => exact Option.some.inj hhead ▸ List.mem_cons_self
        exact (List.nodup_append.mp hnodup).2.2 x hmem x List.mem_cons_self rfl
      rw [hlast, setLink_of_notMem]
      · have := ih h.2 hnodup
        rwa [if_neg hnext] at this
      · intro q hq
        rw [List.getLast?_concat] at hq
        exact Option.some.inj hq ▸ hpa

theorem concat (h : Linked link start xs) (hnodup : xs.Nodup) (hx : x ∉ xs) (hlink : link x = none) :
    Linked (setLink link xs.getLast? (some x)) (if start = none then some x else start)
      (xs ++ [x]) := by
  induction xs generalizing start with
  | nil =>
    have hstart : start = none := h
    rw [if_pos hstart]
    exact ⟨rfl, hlink⟩
  | cons a as ih =>
    obtain ⟨ha, hnodup⟩ := List.nodup_cons.mp hnodup
    obtain ⟨hxa, hxas⟩ := not_or.mp (mt List.mem_cons.mpr hx)
    rw [if_neg (by rw [h.1]; exact Option.some_ne_none a)]
    refine ⟨h.1, ?_⟩
    rcases List.eq_nil_or_concat' as with rfl | ⟨as', p, rfl⟩
    · have hself : setLink link [a].getLast? (some x) a = some x := Function.update_self a _ _
      rw [hself]
      exact ⟨rfl, (Function.update_of_ne hxa _ _).trans hlink⟩
    · have hpa : p ≠ a := fun hpa => ha (hpa ▸ by simp)
      have hlast : (a :: (as' ++ [p])).getLast? = (as' ++ [p]).getLast? := by
        rw [← List.cons_append, List.getLast?_concat, List.getLast?_concat]
      have hnext : link a ≠ none := by
        rw [h.2.start_eq]
        cases as' <;> exact Option.some_ne_none _
      rw [hlast, setLink_of_notMem]
      · have := ih h.2 hnodup hxas
        rwa [if_neg hnext] at this
      · intro q hq
        rw [List.getLast?_concat] at hq
        exact Option.some.inj hq ▸ hpa

end Linked

/-- The links of cells, and the ends of one doubly linked list of them. -/
structure Links (ι : Type*) where
  next : ι → Option ι
  prev : ι → Option ι
  head : Option ι
  tail : Option ι

namespace Links

structure Holds (l : Links ι) (xs : List ι) : Prop where
  forward : Linked l.next l.head xs
  backward : Linked l.prev l.tail xs.reverse
  nodup : xs.Nodup

variable {l : Links ι}

theorem Holds.congr {l' : Links ι} (h : l.Holds xs) (hnext : ∀ x ∈ xs, l'.next x = l.next x)
    (hprev : ∀ x ∈ xs, l'.prev x = l.prev x) (hhead : l'.head = l.head)
    (htail : l'.tail = l.tail) : l'.Holds xs :=
  ⟨hhead ▸ h.forward.congr hnext,
    htail ▸ h.backward.congr fun x hx => hprev x (List.mem_reverse.mp hx), h.nodup⟩

theorem Holds.mem_of_head (h : l.Holds xs) (hx : l.head = some x) : x ∈ xs :=
  List.mem_of_head? (h.forward.start_eq ▸ hx)

theorem Holds.mem_of_tail (h : l.Holds xs) (hx : l.tail = some x) : x ∈ xs :=
  List.mem_reverse.mp (List.mem_of_head? (h.backward.start_eq ▸ hx))

theorem Holds.next_eq (h : l.Holds (as ++ x :: bs)) : l.next x = bs.head? := h.forward.link_eq

theorem Holds.prev_eq (h : l.Holds (as ++ x :: bs)) : l.prev x = as.getLast? := by
  have hback := h.backward
  rw [List.reverse_append, List.reverse_cons, List.append_assoc, List.singleton_append] at hback
  rw [hback.link_eq, List.head?_reverse]

variable [DecidableEq ι]

/-- The cell `x` is taken out of its list and its own links are cleared. -/
def remove (l : Links ι) (x : ι) : Links ι where
  next := Function.update (Linked.setLink l.next (l.prev x) (l.next x)) x none
  prev := Function.update (Linked.setLink l.prev (l.next x) (l.prev x)) x none
  head := if l.head = some x then l.next x else l.head
  tail := if l.tail = some x then l.prev x else l.tail

def pushFront (l : Links ι) (x : ι) : Links ι where
  next := Function.update l.next x l.head
  prev := Linked.setLink l.prev l.head (some x)
  head := some x
  tail := if l.tail = none then some x else l.tail

theorem Holds.remove (h : l.Holds (as ++ x :: bs)) : (l.remove x).Holds (as ++ bs) := by
  have hmiddle := List.nodup_middle.mp h.nodup
  obtain ⟨hx, hnodup⟩ := List.nodup_cons.mp hmiddle
  have hback := h.backward
  rw [List.reverse_append, List.reverse_cons, List.append_assoc, List.singleton_append] at hback
  have hrev : (bs.reverse ++ x :: as.reverse).Nodup := by
    rw [List.nodup_middle, ← List.reverse_append]
    exact List.nodup_cons.mpr ⟨mt List.mem_reverse.mp hx, List.nodup_reverse.mpr hnodup⟩
  refine ⟨?_, ?_, hnodup⟩
  · have hforward := h.forward.remove h.nodup
    rw [← h.prev_eq] at hforward
    exact hforward.update_of_notMem hx none
  · have hbackward := hback.remove hrev
    rw [List.getLast?_reverse, ← h.next_eq, ← List.reverse_append] at hbackward
    exact hbackward.update_of_notMem (mt List.mem_reverse.mp hx) none

theorem Holds.pushFront (h : l.Holds xs) (hx : x ∉ xs) (hprev : l.prev x = none) :
    (l.pushFront x).Holds (x :: xs) := by
  refine ⟨h.forward.cons hx, ?_, List.nodup_cons.mpr ⟨hx, h.nodup⟩⟩
  have hconcat := h.backward.concat (List.nodup_reverse.mpr h.nodup)
    (mt List.mem_reverse.mp hx) hprev
  rw [List.getLast?_reverse, ← h.forward.start_eq] at hconcat
  rw [List.reverse_cons]
  exact hconcat

theorem remove_of_cleared (hhead : l.head ≠ some x) (htail : l.tail ≠ some x)
    (hnext : l.next x = none) (hprev : l.prev x = none) : l.remove x = l := by
  cases l with
  | mk next prev head tail =>
    simp only [remove, mk.injEq] at hnext hprev hhead htail ⊢
    rw [hnext, hprev, if_neg hhead, if_neg htail]
    exact ⟨Function.update_eq_self_iff.mpr hnext.symm, Function.update_eq_self_iff.mpr hprev.symm,
      rfl, rfl⟩

theorem Holds.remove_next (h : l.Holds (as ++ x :: bs)) (hy : y ∉ as ++ x :: bs) :
    (l.remove x).next y = l.next y := by
  have hyx : y ≠ x := fun hyx => hy (hyx ▸ by simp)
  refine (Function.update_of_ne hyx _ _).trans (Linked.setLink_of_notMem _ ?_)
  rw [h.prev_eq]
  rintro p hp rfl
  exact hy (List.mem_append_left _ (List.mem_of_getLast? hp))

theorem Holds.remove_prev (h : l.Holds (as ++ x :: bs)) (hy : y ∉ as ++ x :: bs) :
    (l.remove x).prev y = l.prev y := by
  have hyx : y ≠ x := fun hyx => hy (hyx ▸ by simp)
  refine (Function.update_of_ne hyx _ _).trans (Linked.setLink_of_notMem _ ?_)
  rw [h.next_eq]
  rintro p hp rfl
  exact hy (List.mem_append_right _ (List.mem_cons_of_mem x (List.mem_of_head? hp)))

theorem pushFront_next (hy : y ≠ x) : (l.pushFront x).next y = l.next y :=
  Function.update_of_ne hy _ _

theorem Holds.pushFront_prev (h : l.Holds xs) (hy : y ∉ xs) :
    (l.pushFront x).prev y = l.prev y := by
  refine Linked.setLink_of_notMem _ ?_
  rw [h.forward.start_eq]
  rintro p hp rfl
  exact hy (List.mem_of_head? hp)

end Links

end Mozkey.Lib
