import Mozkey.Base.Utf8Append
import Mozkey.Prediction.UserHistoryLookupCorrect

/-! Which of the entries that `MakeResults` chooses are another one with hiragana behind it: a round
of its loop removes one such pair, and never more. -/

namespace Mozkey.Prediction

open Storage Base

def Modules.withScriptType (modules : Modules) : Modules :=
  { modules with isHiragana := fun s => Util.isScriptType s .hiragana }

/-- `text` is `start` with hiragana behind it, or with nothing. -/
def Extends (text start : Bytes) : Prop :=
  ∃ rest, text = start ++ rest ∧ Util.isScriptType rest .hiragana = true

theorem startsWithAndHiragana_iff {modules : Modules} {text start : Bytes} :
    startsWithAndHiragana modules.withScriptType text start = true ↔ Extends text start := by
  rw [startsWithAndHiragana, Bool.and_eq_true, List.isPrefixOf_iff_prefix]
  constructor
  · rintro ⟨⟨rest, rfl⟩, hrest⟩
    rw [List.drop_left] at hrest
    exact ⟨rest, rfl, hrest⟩
  · rintro ⟨rest, rfl, hrest⟩
    refine ⟨⟨rest, rfl⟩, ?_⟩
    rw [List.drop_left]
    exact hrest

/-- No value is another one with some hiragana behind it. -/
def NonRedundant (entries : List Entry) : Prop :=
  ∀ x ∈ entries, ∀ y ∈ entries, ∀ rest, y.value = x.value ++ rest →
    Util.isScriptType rest .hiragana = true → rest = []

structure Choosing where
  queue : EntryPriorityQueue
  entries : List Entry := []
  insertedCharCoverage : Nat := 0

namespace Choosing

section rounds

variable (modules : Modules) (maxPredictionSize maxPredictionCharCoverage : Nat)

def next (s : Choosing) : Option Choosing :=
  if maxPredictionSize ≤ s.entries.length then none
  else
    match s.queue.pop with
    | none => none
    | some (entry, queue) =>
      if ¬ isValidUtf8 entry.value ∨ s.entries.any (fun inserted =>
          startsWithAndHiragana modules.withScriptType entry.value inserted.value) then
        some { s with queue }
      else
        match s.entries.findIdx? fun inserted =>
            startsWithAndHiragana modules.withScriptType inserted.value entry.value with
        | some i =>
          some {
            queue
            entries := s.entries.set i entry
            insertedCharCoverage := s.insertedCharCoverage -
              ((s.entries.map fun e => charsLen e.value).getD i 0) + charsLen entry.value }
        | none =>
          if 0 < maxPredictionCharCoverage ∧ s.entries ≠ [] ∧
              maxPredictionCharCoverage < s.insertedCharCoverage + charsLen entry.value then none
          else
            some {
              queue
              entries := s.entries ++ [entry]
              insertedCharCoverage := s.insertedCharCoverage + charsLen entry.value }

def Reaches : Choosing → Choosing → Prop :=
  Relation.ReflTransGen fun s s' =>
    s.next modules maxPredictionSize maxPredictionCharCoverage = some s'

/-- The next value is not redundant, and two of the chosen ones are that value with hiragana. -/
def Doubled (s : Choosing) : Prop :=
  s.entries.length < maxPredictionSize ∧
    ∃ entry queue, s.queue.pop = some (entry, queue) ∧ isValidUtf8 entry.value = true ∧
      (∀ inserted ∈ s.entries, ¬ Extends entry.value inserted.value) ∧
      ∃ (i j : Nat) (a b : Entry), i < j ∧ s.entries[i]? = some a ∧ s.entries[j]? = some b ∧
        Extends a.value entry.value ∧ Extends b.value entry.value

theorem chooseEntries_succ (fuel : Nat) (s : Choosing) :
    chooseEntries modules.withScriptType maxPredictionSize maxPredictionCharCoverage (fuel + 1)
        s.queue s.entries s.insertedCharCoverage =
      (s.next modules maxPredictionSize maxPredictionCharCoverage).elim s.entries fun s' =>
        chooseEntries modules.withScriptType maxPredictionSize maxPredictionCharCoverage fuel
          s'.queue s'.entries s'.insertedCharCoverage := by
  rw [chooseEntries, next]
  by_cases hsize : maxPredictionSize ≤ s.entries.length
  · rw [if_pos hsize, if_pos hsize]
    rfl
  rw [if_neg hsize, if_neg hsize]
  cases s.queue.pop with
  | none => rfl
  | some r =>
    obtain ⟨entry, queue⟩ := r
    dsimp only
    split_ifs
    · rfl
    all_goals
      cases s.entries.findIdx? fun inserted =>
        startsWithAndHiragana modules.withScriptType inserted.value entry.value <;> rfl

end rounds

variable {modules : Modules} {maxPredictionSize maxPredictionCharCoverage : Nat} {s s' : Choosing}

theorem next_cases (h : s.next modules maxPredictionSize maxPredictionCharCoverage = some s') :
    s.entries.length < maxPredictionSize ∧
    ∃ entry queue, s.queue.pop = some (entry, queue) ∧ s'.queue = queue ∧
      ((isValidUtf8 entry.value = true →
          ∃ inserted ∈ s.entries, Extends entry.value inserted.value) ∧
        s'.entries = s.entries ∧ s'.insertedCharCoverage = s.insertedCharCoverage ∨
      isValidUtf8 entry.value = true ∧
        (∀ inserted ∈ s.entries, ¬ Extends entry.value inserted.value) ∧
        ((∃ (i : Nat) (a : Entry), s.entries[i]? = some a ∧ Extends a.value entry.value ∧
            (∀ (j : Nat) (b : Entry), s.entries[j]? = some b → Extends b.value entry.value → i ≤ j) ∧
            s'.entries = s.entries.set i entry ∧
            s'.insertedCharCoverage =
              s.insertedCharCoverage - charsLen a.value + charsLen entry.value) ∨
        (∀ inserted ∈ s.entries, ¬ Extends inserted.value entry.value) ∧
          (0 < maxPredictionCharCoverage → s.entries ≠ [] →
            s.insertedCharCoverage + charsLen entry.value ≤ maxPredictionCharCoverage) ∧
          s'.entries = s.entries ++ [entry] ∧
          s'.insertedCharCoverage = s.insertedCharCoverage + charsLen entry.value)) := by
  rw [next] at h
  split at h
  · cases h
  rename_i hsize
  split at h
  · cases h
  rename_i entry queue hpop
  refine ⟨Nat.lt_of_not_le hsize, entry, queue, hpop, ?_⟩
  split at h
  · rename_i hskip
    cases h
    refine ⟨rfl, .inl ⟨fun hvalid => ?_, rfl, rfl⟩⟩
    obtain ⟨inserted, hmem, hextends⟩ :=
      List.any_eq_true.mp (hskip.resolve_left fun h => h hvalid)
    exact ⟨inserted, hmem, startsWithAndHiragana_iff.mp hextends⟩
  rename_i hskip
  rw [not_or, not_not, List.any_eq_true] at hskip
  have hnew : ∀ inserted ∈ s.entries, ¬ Extends entry.value inserted.value := fun inserted hmem h =>
    hskip.2 ⟨inserted, hmem, startsWithAndHiragana_iff.mpr h⟩
  split at h
  · rename_i i hfind
    obtain ⟨hi, hextends, hfirst⟩ := List.findIdx?_eq_some_iff_getElem.mp hfind
    cases h
    refine ⟨rfl, .inr ⟨hskip.1, hnew, .inl ⟨i, s.entries[i], List.getElem?_eq_getElem hi,
      startsWithAndHiragana_iff.mp hextends, ?_, rfl, ?_⟩⟩⟩
    · intro j b hj hb
      by_contra hlt
      obtain ⟨hj', rfl⟩ := List.getElem?_eq_some_iff.mp hj
      exact hfirst j (by omega) (startsWithAndHiragana_iff.mpr hb)
    · rw [List.getD_eq_getElem?_getD, List.getElem?_map, List.getElem?_eq_getElem hi]
      rfl
  · rename_i hfind
    rw [List.findIdx?_eq_none_iff] at hfind
    split at h
    · cases h
    rename_i hlimit
    cases h
    refine ⟨rfl, .inr ⟨hskip.1, hnew, .inr ⟨fun inserted hmem hextends => ?_, ?_, rfl, rfl⟩⟩⟩
    · exact absurd (startsWithAndHiragana_iff.mpr hextends)
        (Bool.eq_false_iff.mp (hfind inserted hmem))
    · intro hpos hne
      by_contra hlt
      exact hlimit ⟨hpos, hne, Nat.lt_of_not_le hlt⟩

theorem length_pop {queue rest : EntryPriorityQueue} {entry : Entry}
    (h : queue.pop = some (entry, rest)) : rest.agenda.length + 1 = queue.agenda.length := by
  rw [EntryPriorityQueue.pop] at h
  split at h
  · cases h
  · rename_i element agenda hagenda
    cases h
    rw [List.length_erase_of_mem (mem_top element agenda), hagenda]
    rfl

theorem exists_reaches {fuel : Nat} (hfuel : s.queue.agenda.length ≤ fuel) :
    ∃ last, s.Reaches modules maxPredictionSize maxPredictionCharCoverage last ∧
      chooseEntries modules.withScriptType maxPredictionSize maxPredictionCharCoverage fuel s.queue
        s.entries s.insertedCharCoverage = last.entries ∧
      last.next modules maxPredictionSize maxPredictionCharCoverage = none := by
  induction fuel generalizing s with
  | zero =>
    have hagenda : s.queue.agenda = [] := List.eq_nil_of_length_eq_zero (Nat.le_zero.mp hfuel)
    refine ⟨s, .refl, rfl, ?_⟩
    cases hnext : s.next modules maxPredictionSize maxPredictionCharCoverage with
    | none => rfl
    | some s' =>
      obtain ⟨-, entry, queue, hpop, -⟩ := next_cases hnext
      have := length_pop hpop
      rw [hagenda] at this
      cases this
  | succ fuel ih =>
    rw [chooseEntries_succ]
    cases hnext : s.next modules maxPredictionSize maxPredictionCharCoverage with
    | none => exact ⟨s, .refl, rfl, hnext⟩
    | some s' =>
      obtain ⟨-, entry, queue, hpop, hqueue, -⟩ := next_cases hnext
      have hlength := length_pop hpop
      obtain ⟨last, hreaches, heq, hend⟩ := ih (s := s') (by rw [hqueue]; omega)
      exact ⟨last, .head hnext hreaches, heq, hend⟩

/-! The number of characters. -/

theorem sum_set {l : List Nat} {i a : Nat} (n : Nat) (h : l[i]? = some a) :
    (l.set i n).sum + a = l.sum + n := by
  induction l generalizing i with
  | nil => cases h
  | cons b l ih =>
    cases i with
    | zero =>
      cases h
      simp only [List.set_cons_zero, List.sum_cons]
      omega
    | succ i =>
      have := ih h
      simp only [List.set_cons_succ, List.sum_cons]
      omega

/-- The coverage is the number of characters, and within the limit for two or more entries. -/
structure Covered (maxPredictionCharCoverage : Nat) (s : Choosing) : Prop where
  sum : s.insertedCharCoverage = (s.entries.map fun e => charsLen e.value).sum
  le : 0 < maxPredictionCharCoverage → 1 < s.entries.length →
    s.insertedCharCoverage ≤ maxPredictionCharCoverage

theorem Covered.next (h : s.Covered maxPredictionCharCoverage)
    (hnext : s.next modules maxPredictionSize maxPredictionCharCoverage = some s') :
    s'.Covered maxPredictionCharCoverage := by
  obtain ⟨-, entry, queue, -, -, ⟨-, hentries, hcoverage⟩ | ⟨-, -, hround⟩⟩ :=
    next_cases hnext
  · exact ⟨by rw [hentries, hcoverage, h.sum], by rw [hentries, hcoverage]; exact h.le⟩
  rcases hround with ⟨i, a, hi, ⟨rest, hvalue, -⟩, -, hentries, hcoverage⟩ |
    ⟨-, hlimit, hentries, hcoverage⟩
  · have hmap : (s.entries.map fun e => charsLen e.value)[i]? = some (charsLen a.value) := by
      rw [List.getElem?_map, hi]
      rfl
    have hsum := sum_set (charsLen entry.value) hmap
    have hle : charsLen entry.value ≤ charsLen a.value := hvalue ▸ charsLen_le_append _ _
    have hmem : charsLen a.value ≤ (s.entries.map fun e => charsLen e.value).sum :=
      List.single_le_sum (fun _ _ => Nat.zero_le _) _ (List.mem_of_getElem? hmap)
    rw [← h.sum] at hsum hmem
    refine ⟨?_, fun hpos hlength => ?_⟩
    · rw [hentries, hcoverage, List.map_set]
      omega
    · rw [hentries, List.length_set] at hlength
      have := h.le hpos hlength
      omega
  · refine ⟨?_, fun hpos hlength => ?_⟩
    · rw [hentries, hcoverage, h.sum, List.map_append, List.sum_append, List.map_singleton,
        List.sum_singleton]
    · rw [hentries, List.length_append, List.length_singleton] at hlength
      rw [hcoverage]
      exact hlimit hpos (List.ne_nil_of_length_pos (by omega))

/-! The redundant pairs. -/

/-- The entries are valid, as every one that is chosen is. -/
def Valid (s : Choosing) : Prop := ∀ entry ∈ s.entries, isValidUtf8 entry.value = true

theorem mem_set_cases {entries : List Entry} {i : Nat} {entry x : Entry}
    (h : x ∈ entries.set i entry) : x = entry ∨ ∃ j, j ≠ i ∧ entries[j]? = some x := by
  obtain ⟨j, hj⟩ := List.mem_iff_getElem?.mp h
  rw [List.getElem?_set] at hj
  split at hj
  · split at hj
    · exact .inl (Option.some.inj hj).symm
    · cases hj
  · rename_i hne
    exact .inr ⟨j, Ne.symm hne, hj⟩

theorem Valid.next (h : s.Valid)
    (hnext : s.next modules maxPredictionSize maxPredictionCharCoverage = some s') : s'.Valid := by
  obtain ⟨-, entry, queue, -, -, ⟨-, hentries, -⟩ | ⟨hvalid, -, hround⟩⟩ := next_cases hnext
  · rw [Valid, hentries]
    exact h
  rcases hround with ⟨i, a, -, -, -, hentries, -⟩ | ⟨-, -, hentries, -⟩
  · intro x hx
    rw [hentries] at hx
    rcases mem_set_cases hx with rfl | ⟨j, -, hj⟩
    · exact hvalid
    · exact h x (List.mem_of_getElem? hj)
  · intro x hx
    rw [hentries, List.mem_append, List.mem_singleton] at hx
    rcases hx with hx | rfl
    · exact h x hx
    · exact hvalid

theorem nonRedundant_next (h : NonRedundant s.entries) (hdoubled : ¬ s.Doubled maxPredictionSize)
    (hnext : s.next modules maxPredictionSize maxPredictionCharCoverage = some s') :
    NonRedundant s'.entries := by
  obtain ⟨hsize, entry, queue, hpop, -, ⟨-, hentries, -⟩ | ⟨hvalid, hnew, hround⟩⟩ :=
    next_cases hnext
  · rw [hentries]
    exact h
  have hself : ∀ rest, entry.value = entry.value ++ rest → rest = [] := fun rest heq =>
    List.append_right_eq_self.mp heq.symm
  rcases hround with ⟨i, a, hi, ha, -, hentries, -⟩ | ⟨hno, -, hentries, -⟩
  · -- Only the entry that is replaced is the new value with hiragana.
    have hother : ∀ j x, j ≠ i → s.entries[j]? = some x → ¬ Extends x.value entry.value := by
      intro j x hne hj hx
      rcases Nat.lt_or_gt_of_ne hne with hlt | hlt
      · exact hdoubled ⟨hsize, entry, queue, hpop, hvalid, hnew, j, i, x, a, hlt, hj, hi, hx, ha⟩
      · exact hdoubled ⟨hsize, entry, queue, hpop, hvalid, hnew, i, j, a, x, hlt, hi, hj, ha, hx⟩
    rw [hentries]
    intro x hx y hy rest heq hrest
    rcases mem_set_cases hx with rfl | ⟨j, -, hj⟩
    · rcases mem_set_cases hy with rfl | ⟨k, hk, hy⟩
      · exact hself rest heq
      · exact (hother k y hk hy ⟨rest, heq, hrest⟩).elim
    · rcases mem_set_cases hy with rfl | ⟨k, -, hy⟩
      · exact (hnew x (List.mem_of_getElem? hj) ⟨rest, heq, hrest⟩).elim
      · exact h x (List.mem_of_getElem? hj) y (List.mem_of_getElem? hy) rest heq hrest
  · rw [hentries]
    intro x hx y hy rest heq hrest
    rw [List.mem_append, List.mem_singleton] at hx hy
    rcases hx with hx | rfl
    · rcases hy with hy | rfl
      · exact h x hx y hy rest heq hrest
      · exact (hnew x hx ⟨rest, heq, hrest⟩).elim
    · rcases hy with hy | rfl
      · exact (hno y hy ⟨rest, heq, hrest⟩).elim
      · exact hself rest heq

theorem not_nonRedundant {entries : List Entry} {x y : Entry} {rest : Bytes} (hx : x ∈ entries)
    (hy : y ∈ entries) (heq : y.value = x.value ++ rest)
    (hrest : Util.isScriptType rest .hiragana = true) (hne : rest ≠ []) : ¬ NonRedundant entries :=
  fun h => hne (h x hx y hy rest heq hrest)

theorem redundant_of_doubled (h : s.Doubled maxPredictionSize)
    (hnext : s.next modules maxPredictionSize maxPredictionCharCoverage = some s') :
    ¬ NonRedundant s'.entries := by
  obtain ⟨-, entry, queue, hpop, hvalid, hnew, i, j, a, b, hlt, hi, hj, ha, hb⟩ := h
  obtain ⟨-, entry', queue', hpop', -, hround⟩ := next_cases hnext
  rw [hpop] at hpop'
  cases hpop'
  obtain ⟨rest, hvalue, hrest⟩ := hb
  have hne : rest ≠ [] := by
    rintro rfl
    rw [List.append_nil] at hvalue
    exact hnew b (List.mem_of_getElem? hj) ⟨[], by rw [List.append_nil, hvalue], rfl⟩
  rcases hround with ⟨hskip, -, -⟩ | ⟨-, -, ⟨k, c, hk, -, hfirst, hentries, -⟩ | ⟨hno, -, -, -⟩⟩
  · obtain ⟨inserted, hmem, hextends⟩ := hskip hvalid
    exact (hnew inserted hmem hextends).elim
  · -- The second of the two is not the one that is replaced.
    have hkj : k ≠ j := by
      have := hfirst i a hi ha
      omega
    have hlen := (List.getElem?_eq_some_iff.mp hk).1
    rw [hentries]
    refine not_nonRedundant (List.mem_of_getElem? (i := k) ?_) (List.mem_of_getElem? (i := j) ?_)
      hvalue hrest hne
    · rw [List.getElem?_set_self hlen]
    · rw [List.getElem?_set_ne hkj, hj]
  · exact (hno a (List.mem_of_getElem? hi) ha).elim

theorem redundant_next (h : ¬ NonRedundant s.entries) (hvalid : s.Valid)
    (hnext : s.next modules maxPredictionSize maxPredictionCharCoverage = some s') :
    ¬ NonRedundant s'.entries := by
  obtain ⟨x, hx, y, hy, rest, heq, hrest, hne⟩ : ∃ x ∈ s.entries, ∃ y ∈ s.entries, ∃ rest,
      y.value = x.value ++ rest ∧ Util.isScriptType rest .hiragana = true ∧ rest ≠ [] := by
    simpa [NonRedundant] using h
  obtain ⟨-, entry, queue, -, -, ⟨-, hentries, -⟩ | ⟨hentry, hnew, hround⟩⟩ := next_cases hnext
  · rw [hentries]
    exact h
  rcases hround with ⟨i, a, hi, ⟨g, ha, hg⟩, -, hentries, -⟩ | ⟨-, -, hentries, -⟩
  · rw [hentries]
    have hlen := (List.getElem?_eq_some_iff.mp hi).1
    have hmem : entry ∈ s.entries.set i entry := List.mem_set hlen entry
    have hkept : ∀ z ∈ s.entries, z ≠ a → z ∈ s.entries.set i entry := by
      intro z hz hza
      obtain ⟨j, hj⟩ := List.mem_iff_getElem?.mp hz
      refine List.mem_of_getElem? (i := j) ?_
      rw [List.getElem?_set_ne, hj]
      rintro rfl
      exact hza (Option.some.inj (hj.symm.trans hi))
    have hgvalid : isValidUtf8 g = true := by
      rw [← isValidUtf8_append hentry, ← ha]
      exact hvalid a (List.mem_of_getElem? hi)
    have hxy : x ≠ y := by
      rintro rfl
      exact hne (List.append_right_eq_self.mp heq.symm)
    by_cases hxa : x = a
    · -- The shorter one is replaced by a beginning of it.
      subst hxa
      refine not_nonRedundant hmem (hkept y hy (Ne.symm hxy)) ?_ ?_
        (List.append_ne_nil_of_right_ne_nil g hne)
      · rw [heq, ha, List.append_assoc]
      · rw [Util.isScriptType_append hgvalid, hg, hrest]
        rfl
    · by_cases hya : y = a
      · -- The longer one is replaced by a beginning of it, which is one of the shorter one, too.
        subst hya
        rw [heq] at ha
        rcases List.append_eq_append_iff.mp ha with ⟨c, hc, hsplit⟩ | ⟨c, hc, hsplit⟩
        · have hcvalid : isValidUtf8 c = true := by
            rw [← isValidUtf8_append (hvalid x hx), ← hc]
            exact hentry
          rw [hsplit, Util.isScriptType_append hcvalid, Bool.and_eq_true] at hrest
          exact (hnew x hx ⟨c, hc, hrest.1⟩).elim
        · have hcvalid : isValidUtf8 c = true := by
            rw [← isValidUtf8_append hentry, ← hc]
            exact hvalid x hx
          rw [hsplit, Util.isScriptType_append hcvalid, Bool.and_eq_true] at hg
          refine not_nonRedundant hmem (hkept x hx hxa) hc hg.1 ?_
          rintro rfl
          rw [List.append_nil] at hc
          exact hnew x hx ⟨[], by rw [List.append_nil, hc], rfl⟩
      · exact not_nonRedundant (hkept x hx hxa) (hkept y hy hya) heq hrest hne
  · rw [hentries]
    exact not_nonRedundant (List.mem_append_left _ hx) (List.mem_append_left _ hy) heq hrest hne

/-! Runs of the loop. -/

theorem Reaches.covered (h : s.Reaches modules maxPredictionSize maxPredictionCharCoverage s')
    (hs : s.Covered maxPredictionCharCoverage) : s'.Covered maxPredictionCharCoverage := by
  induction h with
  | refl => exact hs
  | tail _ hnext ih => exact ih.next hnext

theorem Reaches.valid (h : s.Reaches modules maxPredictionSize maxPredictionCharCoverage s')
    (hs : s.Valid) : s'.Valid := by
  induction h with
  | refl => exact hs
  | tail _ hnext ih => exact ih.next hnext

theorem Reaches.nonRedundant (h : s.Reaches modules maxPredictionSize maxPredictionCharCoverage s')
    (hs : NonRedundant s.entries) (hdoubled : ∀ t,
      s.Reaches modules maxPredictionSize maxPredictionCharCoverage t →
        ¬ t.Doubled maxPredictionSize) : NonRedundant s'.entries := by
  induction h with
  | refl => exact hs
  | tail hreaches hnext ih => exact nonRedundant_next ih (hdoubled _ hreaches) hnext

theorem Reaches.redundant (h : s.Reaches modules maxPredictionSize maxPredictionCharCoverage s')
    (hvalid : s.Valid) (hs : ¬ NonRedundant s.entries) : ¬ NonRedundant s'.entries := by
  induction h with
  | refl => exact hs
  | tail hreaches hnext ih => exact redundant_next ih (Reaches.valid hreaches hvalid) hnext

theorem Doubled.exists_next (h : s.Doubled maxPredictionSize) :
    ∃ s', s.next modules maxPredictionSize maxPredictionCharCoverage = some s' := by
  obtain ⟨hsize, entry, queue, hpop, hvalid, hnew, i, -, a, -, -, hi, -, ha, -⟩ := h
  have hskip : ¬ (¬ isValidUtf8 entry.value = true ∨ s.entries.any (fun inserted =>
      startsWithAndHiragana modules.withScriptType entry.value inserted.value) = true) := by
    rintro (h | h)
    · exact h hvalid
    · obtain ⟨inserted, hmem, hextends⟩ := List.any_eq_true.mp h
      exact hnew inserted hmem (startsWithAndHiragana_iff.mp hextends)
  rw [next, if_neg (Nat.not_le.mpr hsize), hpop]
  dsimp only
  rw [if_neg hskip]
  cases hfind : s.entries.findIdx? fun inserted =>
      startsWithAndHiragana modules.withScriptType inserted.value entry.value with
  | some k => exact ⟨_, rfl⟩
  | none =>
    rw [List.findIdx?_eq_none_iff] at hfind
    have := hfind a (List.mem_of_getElem? hi)
    rw [startsWithAndHiragana_iff.mpr ha] at this
    cases this

end Choosing

end Mozkey.Prediction
