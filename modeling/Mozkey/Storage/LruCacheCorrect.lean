import Mozkey.Storage.LruCacheLists

/-! The cache is a bounded recency list: every run of the operations answers as the recency list
does, and the constructor ends exactly where its shifts do not wrap. -/

namespace Mozkey.Storage

open Lib

namespace Blocks

variable {b : Blocks} {n : Nat}

structure Sound (b : Blocks) : Prop where
  lt_size : b.maxElements < 2 ^ 64
  capacity_le : b.blockCapacity ≤ b.maxElements
  next_le : b.blockCount < maxBlocks → b.blockCapacity + b.nextBlockSize ≤ b.maxElements

theorem sizeAdd_eq {i j : Nat} (h : i + j < 2 ^ 64) : sizeAdd i j = i + j := Nat.mod_eq_of_lt h

theorem sizeSub_eq {i j : Nat} (hle : j ≤ i) (h : i < 2 ^ 64) : sizeSub i j = i - j := by
  rw [sizeSub, Nat.sub_add_comm hle, Nat.add_mod_right, Nat.mod_eq_of_lt (by omega)]

theorem capacity_grow (h : b.Sound) (hroom : b.HasRoom) :
    b.grow.blockCapacity = b.blockCapacity + b.nextBlockSize :=
  sizeAdd_eq (Nat.lt_of_le_of_lt (h.next_le hroom.1) h.lt_size)

theorem next_grow_le (h : b.Sound) (hroom : b.HasRoom) (hlast : b.blockCount + 1 < maxBlocks) :
    b.grow.nextBlockSize ≤ b.maxElements - (b.blockCapacity + b.nextBlockSize) := by
  have hle := h.next_le hroom.1
  have hlt := h.lt_size
  have hcap : sizeAdd b.blockCapacity b.nextBlockSize = b.blockCapacity + b.nextBlockSize :=
    capacity_grow h hroom
  obtain ⟨room, hroom'⟩ : ∃ room, room = b.maxElements - (b.blockCapacity + b.nextBlockSize) :=
    ⟨_, rfl⟩
  have hbounded : ∀ d q : Nat, q ≤ room → (if d > q then q else d) ≤ room := by
    intro d q hq
    split
    · exact hq
    · rename_i hd
      exact (Nat.le_of_not_lt hd).trans hq
  have hchecked : ∀ n bounded : Nat, bounded ≤ room →
      (if n > b.maxElements then room else bounded) ≤ room := by
    intro n bounded hle
    split
    · exact Nat.le_refl room
    · exact hle
  rw [grow]
  simp only [hcap, sizeSub_eq hle hlt, ← hroom']
  rw [if_pos (Nat.sub_pos_of_lt hlast)]
  exact hchecked _ _ (hbounded _ _ (Nat.div_le_self _ _))

theorem Sound.grow (h : b.Sound) (hroom : b.HasRoom) : b.grow.Sound := by
  have hle := h.next_le hroom.1
  refine ⟨h.lt_size, ?_, fun hlast => ?_⟩
  · rw [capacity_grow h hroom]
    exact hle
  · have := next_grow_le h hroom hlast
    rw [capacity_grow h hroom]
    show _ ≤ b.maxElements
    omega

theorem next_grow_zero (h : b.Sound) (hzero : b.nextBlockSize = 0) : b.grow.nextBlockSize = 0 := by
  have hcap : sizeAdd b.blockCapacity 0 = b.blockCapacity :=
    sizeAdd_eq (Nat.lt_of_le_of_lt h.capacity_le h.lt_size)
  have hdouble : sizeShiftLeft 0 1 = 0 := rfl
  rw [grow]
  simp only [hzero, hcap, hdouble]
  rw [if_neg (Nat.not_lt_zero _), hcap, if_neg (Nat.not_lt.mpr h.capacity_le), ite_self]

/-- The capacity once no block can be added any more. -/
def fullCapacity : Nat → Blocks → Nat
  | 0, b => b.blockCapacity
  | n + 1, b => if b.HasRoom then fullCapacity n b.grow else b.blockCapacity

def limit (b : Blocks) : Nat := fullCapacity (maxBlocks - b.blockCount) b

theorem limit_grow (hroom : b.HasRoom) : b.grow.limit = b.limit := by
  have hcount : maxBlocks - b.blockCount = maxBlocks - b.grow.blockCount + 1 := by
    show _ = maxBlocks - (b.blockCount + 1) + 1
    have := hroom.1
    omega
  rw [limit, limit, hcount, fullCapacity, if_pos hroom]

theorem limit_of_not_room (hroom : ¬ b.HasRoom) : b.limit = b.blockCapacity := by
  rw [limit]
  cases maxBlocks - b.blockCount with
  | zero => rfl
  | succ n => rw [fullCapacity, if_neg hroom]

theorem limit_of_zero (h : b.Sound) (hzero : b.nextBlockSize = 0) : b.limit = b.blockCapacity := by
  rw [limit]
  generalize maxBlocks - b.blockCount = n
  induction n generalizing b with
  | zero => rfl
  | succ n ih =>
    rw [fullCapacity]
    split
    · rename_i hroom
      rw [ih (h.grow hroom) (next_grow_zero h hzero), capacity_grow h hroom, hzero, Nat.add_zero]
    · rfl

theorem fullCapacity_bounds (h : b.Sound) :
    b.blockCapacity ≤ fullCapacity n b ∧ fullCapacity n b ≤ b.maxElements := by
  induction n generalizing b with
  | zero => exact ⟨le_rfl, h.capacity_le⟩
  | succ n ih =>
    rw [fullCapacity]
    split
    · rename_i hroom
      obtain ⟨hlow, hhigh⟩ := ih (h.grow hroom)
      rw [capacity_grow h hroom] at hlow
      exact ⟨(Nat.le_add_right _ _).trans hlow, hhigh⟩
    · exact ⟨le_rfl, h.capacity_le⟩

theorem capacity_le_limit (h : b.Sound) : b.blockCapacity ≤ b.limit := (fullCapacity_bounds h).1

theorem limit_le (h : b.Sound) : b.limit ≤ b.maxElements := (fullCapacity_bounds h).2

theorem limit_pos (h : b.Sound) (hroom : b.HasRoom) (hnext : 0 < b.nextBlockSize) :
    0 < b.limit := by
  have hle := capacity_le_limit (h.grow hroom)
  rw [limit_grow hroom, capacity_grow h hroom] at hle
  omega

end Blocks

/-- The cache as its users see it: keys and values, the most recent first. -/
abbrev RecencyList (κ ν : Type) := List (κ × ν)

namespace RecencyList

variable {κ ν : Type} [DecidableEq κ] (entries : RecencyList κ ν)

def lookup (key : κ) : Option ν := (entries.find? fun x => x.1 = key).map Prod.snd

def erase (key : κ) : RecencyList κ ν := entries.filter fun x => x.1 ≠ key

def touch (key : κ) : RecencyList κ ν :=
  match entries.find? fun x => x.1 = key with
  | some x => x :: entries.erase key
  | none => entries

/-- A key that is new to a full list takes the place of the last one. -/
def insert (limit : Nat) (key : κ) (value : ν) : RecencyList κ ν :=
  (key, value) ::
    if (entries.erase key).length < limit then entries.erase key
    else (entries.erase key).dropLast

def dropped (limit : Nat) (key : κ) : Option κ :=
  if (entries.erase key).length < limit then none
  else (entries.erase key).getLast?.map Prod.fst

open LruCache in
def step (limit : Nat) : Op κ ν → RecencyList κ ν → Answer ν × RecencyList κ ν
  | .insert key value, entries => (.done, entries.insert limit key value)
  | .lookup key, entries => (.value (entries.lookup key), entries.touch key)
  | .lookupWithoutInsert key, entries => (.value (entries.lookup key), entries)
  | .erase key, entries => (.erased (entries.lookup key).isSome, entries.erase key)
  | .clear, _ => (.done, [])

open LruCache in
def run (limit : Nat) : List (Op κ ν) → RecencyList κ ν → List (Answer ν) × RecencyList κ ν
  | [], entries => ([], entries)
  | op :: ops, entries =>
    let (answer, entries) := step limit op entries
    let (answers, entries) := run limit ops entries
    (answer :: answers, entries)

/-- What was last inserted for each key and neither erased, cleared nor dropped since; `values`
was so before the run. -/
def lastInserted (limit : Nat) : List (LruCache.Op κ ν) → RecencyList κ ν → (κ → Option ν) →
    κ → Option ν
  | [], _, values => values
  | op :: ops, entries, values =>
    lastInserted limit ops (step limit op entries).2 <|
      match op with
      | .insert key value => fun k =>
        if k = key then some value else if dropped entries limit key = some k then none else values k
      | .erase key => fun k => if k = key then none else values k
      | .clear => fun _ => none
      | _ => values

variable {entries} {key k : κ} {value : ν} {limit : Nat}

theorem lookup_cons : lookup ((key, value) :: entries) k =
    if k = key then some value else lookup entries k := by
  rw [lookup, List.find?_cons]
  rcases eq_or_ne key k with rfl | hne
  · simp
  · simp [hne, hne.symm, lookup]

theorem lookup_erase : (entries.erase key).lookup k = if k = key then none else entries.lookup k := by
  induction entries with
  | nil => simp [erase, lookup]
  | cons x entries ih =>
    obtain ⟨key', value'⟩ := x
    rw [erase, List.filter_cons]
    rcases eq_or_ne key' key with rfl | hne
    · rw [if_neg (by simp), lookup_cons, ← erase, ih]
      split <;> rfl
    · rw [if_pos (by simpa using hne), lookup_cons, lookup_cons, ← erase, ih]
      rcases eq_or_ne k key' with rfl | hk
      · rw [if_pos rfl, if_pos rfl, if_neg hne]
      · rw [if_neg hk, if_neg hk]

theorem nodup_erase (h : (entries.map Prod.fst).Nodup) : ((entries.erase key).map Prod.fst).Nodup :=
  h.sublist (List.filter_sublist.map Prod.fst)

theorem notMem_erase : key ∉ (entries.erase key).map Prod.fst := by
  intro hmem
  obtain ⟨x, hx, hkey⟩ := List.mem_map.mp hmem
  exact of_decide_eq_true (List.mem_filter.mp hx).2 hkey

theorem lookup_concat (h : ((entries ++ [(key, value)]).map Prod.fst).Nodup) :
    lookup entries k = if k = key then none else lookup (entries ++ [(key, value)]) k := by
  rw [List.map_append, List.map_singleton, List.nodup_append] at h
  rw [lookup, lookup, List.find?_append]
  rcases eq_or_ne k key with rfl | hne
  · rw [if_pos rfl, List.find?_eq_none.mpr]
    · rfl
    · intro x hx
      have := h.2.2 x.1 (List.mem_map_of_mem hx) k (List.mem_singleton.mpr rfl)
      simpa using this
  · rw [if_neg hne]
    have hnone : [(key, value)].find? (fun x => x.1 = k) = none := by
      rw [List.find?_eq_none]
      simpa using hne.symm
    rw [hnone, Option.or_none]

theorem nodup_step (h : (entries.map Prod.fst).Nodup) (op : LruCache.Op κ ν) :
    ((step limit op entries).2.map Prod.fst).Nodup := by
  cases op with
  | insert key value =>
    rw [step, insert]
    refine List.nodup_cons.mpr ?_
    split
    · exact ⟨notMem_erase, nodup_erase h⟩
    · refine ⟨fun hmem => ?_, (nodup_erase h).sublist
        ((List.dropLast_sublist _).map Prod.fst)⟩
      exact notMem_erase (((List.dropLast_sublist _).map Prod.fst).mem hmem)
  | lookup key =>
    rw [step, touch]
    split
    · rename_i x hx
      have hkey : x.1 = key := by simpa using List.find?_some hx
      rw [List.map_cons, hkey]
      exact List.nodup_cons.mpr ⟨notMem_erase, nodup_erase h⟩
    · exact h
  | lookupWithoutInsert key => exact h
  | erase key => exact nodup_erase h
  | clear => exact List.nodup_nil

theorem lookup_insert (h : (entries.map Prod.fst).Nodup) :
    (entries.insert limit key value).lookup k = if k = key then some value
      else if dropped entries limit key = some k then none else entries.lookup k := by
  rw [insert, lookup_cons]
  rcases eq_or_ne k key with rfl | hne
  · rw [if_pos rfl, if_pos rfl]
  rw [if_neg hne, if_neg hne, dropped]
  have herase : (entries.erase key).lookup k = entries.lookup k := by rw [lookup_erase, if_neg hne]
  by_cases hlt : (entries.erase key).length < limit
  · rw [if_pos hlt, if_pos hlt, if_neg (Option.some_ne_none k).symm, herase]
  · rw [if_neg hlt, if_neg hlt]
    have hnodup : ((entries.erase key).map Prod.fst).Nodup := nodup_erase h
    rcases List.eq_nil_or_concat' (entries.erase key) with hnil | ⟨es, ⟨kt, vt⟩, hes⟩
    · rw [hnil] at herase ⊢
      exact herase
    · rw [hes] at hnodup herase ⊢
      rw [List.dropLast_concat, List.getLast?_concat, lookup_concat hnodup, herase]
      refine if_congr ?_ rfl rfl
      rw [Option.map_some, Option.some.injEq]
      exact eq_comm

theorem lookup_touch : (entries.touch key).lookup k = entries.lookup k := by
  rw [touch]
  split
  · rename_i x hx
    obtain ⟨key', value⟩ := x
    obtain rfl : key' = key := by simpa using List.find?_some hx
    rw [lookup_cons, lookup_erase]
    rcases eq_or_ne k key' with rfl | hne
    · rw [if_pos rfl, lookup, hx]
      rfl
    · rw [if_neg hne, if_neg hne]
  · rfl

theorem lookup_run (ops : List (LruCache.Op κ ν)) {values : κ → Option ν}
    (h : (entries.map Prod.fst).Nodup) (hvalues : ∀ k, entries.lookup k = values k) (k : κ) :
    (run limit ops entries).2.lookup k = lastInserted limit ops entries values k := by
  induction ops generalizing entries values with
  | nil => exact hvalues k
  | cons op ops ih =>
    refine ih (nodup_step h op) fun k => ?_
    cases op with
    | insert key value =>
      exact (lookup_insert h).trans (by rw [hvalues k])
    | lookup key => exact lookup_touch.trans (hvalues k)
    | lookupWithoutInsert key => exact hvalues k
    | erase key =>
      exact lookup_erase.trans (by rw [hvalues k])
    | clear => rfl

end RecencyList

namespace LruCache

section refinement

variable {κ ν : Type} [DecidableEq κ] {c c' : LruCache κ ν} {e limit : Nat} {key : κ} {value : ν}
  {lru free : List Nat} {entries : RecencyList κ ν}

/-- The blocks are counted right and can hold up to `limit` elements in the end. -/
structure Sized (c : LruCache κ ν) (limit : Nat) : Prop where
  sound : c.Sound
  length : c.elements.length = c.blockCapacity
  limit : c.toBlocks.limit = limit

/-- The cache holds `entries`, in that order, and may hold up to `limit` of them. -/
structure Represents (c : LruCache κ ν) (limit : Nat) (entries : RecencyList κ ν) : Prop where
  sized : Sized c limit
  lists : ∃ lru free, Lists c lru free [] ∧ lru.map c.entry = entries.map some

omit [DecidableEq κ] in
theorem Sized.congr (h : Sized c limit) (hblocks : c'.toBlocks = c.toBlocks)
    (hlength : c'.elements.length = c.elements.length) : Sized c' limit :=
  ⟨hblocks ▸ h.sound, by rw [hlength, h.length, hblocks], by rw [hblocks, h.limit]⟩

theorem Lists.lookup_congr {free' held held' : List Nat} (h : Lists c lru free held)
    (h' : Lists c' lru free' held') (hentry : ∀ y ∈ lru, c'.entry y = c.entry y) (k : κ) :
    c'.table.lookup k = c.table.lookup k := by
  refine Option.ext fun y => ?_
  rw [h.table k y, h'.table k y]
  refine and_congr_right fun hy => ?_
  rw [hentry y hy]

theorem Lists.split (h : Lists c lru free []) (hentries : lru.map c.entry = entries.map some)
    (hkey : c.table.lookup key = some e) :
    ∃ as bs es₁ es₂ v, lru = as ++ e :: bs ∧ entries = es₁ ++ (key, v) :: es₂ ∧
      as.map c.entry = es₁.map some ∧ bs.map c.entry = es₂.map some ∧
      c.entry e = some (key, v) ∧ ∀ x ∈ es₁ ++ es₂, x.1 ≠ key := by
  obtain ⟨he, hfst⟩ := (h.table key e).mp hkey
  obtain ⟨as, bs, rfl⟩ := List.append_of_mem he
  obtain ⟨⟨k, v⟩, hentry, hk⟩ := Option.map_eq_some_iff.mp hfst
  obtain rfl : k = key := hk
  rw [List.map_append, List.map_cons] at hentries
  obtain ⟨es₁, es, rfl, has, hes⟩ := List.map_eq_append_iff.mp hentries.symm
  obtain ⟨x, es₂, rfl, hx, hbs⟩ := List.map_eq_cons_iff.mp hes
  obtain rfl : x = (k, v) := Option.some.inj (hx.trans hentry)
  refine ⟨as, bs, es₁, es₂, v, rfl, rfl, has.symm, hbs.symm, hentry, ?_⟩
  rintro ⟨k', v'⟩ hother rfl
  -- another element with the same key would be that of the table
  have hmem : some (k', v') ∈ (as ++ bs).map c.entry := by
    rw [List.map_append, ← has, ← hbs, ← List.map_append]
    exact List.mem_map_of_mem hother
  obtain ⟨y, hy, hy'⟩ := List.mem_map.mp hmem
  have hin : y ∈ as ++ e :: bs := List.perm_middle.mem_iff.mpr (List.mem_cons_of_mem e hy)
  have hye := (h.table k' y).mpr ⟨hin, by rw [hy']; rfl⟩
  rw [hkey] at hye
  exact (List.nodup_cons.mp (List.nodup_middle.mp h.holds.nodup)).1 (Option.some.inj hye ▸ hy)

theorem Lists.absent (h : Lists c lru free []) (hentries : lru.map c.entry = entries.map some)
    (hkey : c.table.lookup key = none) : ∀ x ∈ entries, x.1 ≠ key := by
  rintro ⟨k, v⟩ hx rfl
  have hmem : some (k, v) ∈ lru.map c.entry := hentries ▸ List.mem_map_of_mem hx
  obtain ⟨y, hy, hy'⟩ := List.mem_map.mp hmem
  have := (h.table k y).mpr ⟨hy, by rw [hy']; rfl⟩
  rw [hkey] at this
  exact Option.some_ne_none y this.symm

theorem erase_of_forall_ne (h : ∀ x ∈ entries, x.1 ≠ key) : entries.erase key = entries :=
  List.filter_eq_self.mpr fun x hx => decide_eq_true (h x hx)

theorem erase_split {es₁ es₂ : RecencyList κ ν} {v : ν} (h : ∀ x ∈ es₁ ++ es₂, x.1 ≠ key) :
    RecencyList.erase (es₁ ++ (key, v) :: es₂) key = es₁ ++ es₂ := by
  have h₁ := erase_of_forall_ne fun x hx => h x (List.mem_append_left _ hx)
  have h₂ := erase_of_forall_ne fun x hx => h x (List.mem_append_right _ hx)
  rw [RecencyList.erase] at h₁ h₂ ⊢
  rw [List.filter_append, List.filter_cons_of_neg (by simp), h₁, h₂]

theorem find_split {es₁ es₂ : RecencyList κ ν} {v : ν} (h : ∀ x ∈ es₁ ++ es₂, x.1 ≠ key) :
    (es₁ ++ (key, v) :: es₂).find? (fun x => x.1 = key) = some (key, v) := by
  rw [List.find?_append, List.find?_eq_none.mpr, Option.none_or, List.find?_cons_of_pos (by simp)]
  intro x hx
  simpa using h x (List.mem_append_left _ hx)

theorem find_absent (h : ∀ x ∈ entries, x.1 ≠ key) :
    entries.find? (fun x => x.1 = key) = none :=
  List.find?_eq_none.mpr fun x hx => by simpa using h x hx

theorem Lists.length_lt {held : List Nat} (h : Lists c lru free (e :: held))
    (hsized : Sized c limit) : lru.length < limit := by
  have hlength := h.perm.length_eq
  rw [List.length_append, List.length_append, List.length_cons, List.length_range,
    hsized.length] at hlength
  have := Blocks.capacity_le_limit hsized.sound
  rw [hsized.limit] at this
  omega

theorem Lists.evictKey (h : Lists c lru free []) (hentries : lru.map c.entry = entries.map some)
    (hsized : Sized c limit) (key : κ) :
    ∃ c' lru' free', c.evictKey key = some c' ∧ Lists c' lru' free' [] ∧ Sized c' limit ∧
      lru'.map c'.entry = (entries.erase key).map some ∧ c'.table.lookup key = none := by
  cases hkey : c.table.lookup key with
  | none =>
    refine ⟨c, lru, free, ?_, h, hsized, ?_, hkey⟩
    · rw [LruCache.evictKey, lookupInternal, hkey]
    · rw [erase_of_forall_ne (h.absent hentries hkey), hentries]
  | some e =>
    obtain ⟨as, bs, es₁, es₂, v, rfl, rfl, has, hbs, hentry, hne⟩ := h.split hentries hkey
    obtain ⟨c', hevict, hlists, hblocks, hentry', hlength⟩ := h.evict
    have hentries' : (as ++ bs).map c'.entry = (es₁ ++ es₂).map some := by
      rw [hentry', List.map_append, List.map_append, has, hbs]
    refine ⟨c', as ++ bs, e :: free, ?_, hlists, hsized.congr hblocks hlength, ?_, ?_⟩
    · rw [LruCache.evictKey, lookupInternal, hkey]
      simp [hevict]
    · rw [erase_split hne, hentries']
    · by_contra hsome
      obtain ⟨y, hy⟩ := Option.ne_none_iff_exists'.mp hsome
      obtain ⟨hmem, hfst⟩ := (hlists.table key y).mp hy
      have hin : c'.entry y ∈ (es₁ ++ es₂).map some := hentries' ▸ List.mem_map_of_mem hmem
      obtain ⟨x, hx, hxy⟩ := List.mem_map.mp hin
      rw [← hxy] at hfst
      exact hne x hx (Option.some.inj hfst)

theorem Represents.mutableLookup (h : Represents c limit entries) (key : κ) :
    (c.mutableLookup key).1 = entries.lookup key ∧
      Represents (c.mutableLookup key).2 limit (entries.touch key) := by
  obtain ⟨lru, free, hlists, hentries⟩ := h.lists
  cases hkey : c.table.lookup key with
  | none =>
    have hfind := find_absent (hlists.absent hentries hkey)
    have heq : c.mutableLookup key = (none, c) := by
      rw [LruCache.mutableLookup, lookupInternal, hkey]
    rw [heq, RecencyList.lookup, RecencyList.touch, hfind]
    exact ⟨rfl, h⟩
  | some e =>
    obtain ⟨as, bs, es₁, es₂, v, rfl, rfl, has, hbs, hentry, hne⟩ := hlists.split hentries hkey
    have hfind := find_split (v := v) hne
    obtain ⟨x, hx, hx'⟩ := hlists.entry_isSome (e := e) (by simp)
    have hv : x.value = v := congrArg Prod.snd (Option.some.inj (hx'.symm.trans hentry))
    have heq : c.mutableLookup key = (some v, c.pushLRUHead e) := by
      rw [LruCache.mutableLookup, lookupInternal, hkey]
      simp only [hx, Option.map_some, hv]
    have hsame : Relinked c (c.pushLRUHead e) := relinked_pushLRUHead
    rw [heq, RecencyList.lookup, RecencyList.touch, hfind]
    refine ⟨rfl, h.sized.congr hsame.blocks hsame.length, e :: (as ++ bs), free, hlists.touch, ?_⟩
    rw [erase_split hne, hsame.entry, List.map_cons, List.map_cons, hentry, List.map_append,
      List.map_append, has, hbs]

theorem Represents.lookupWithoutInsert (h : Represents c limit entries) (key : κ) :
    c.lookupWithoutInsert key = entries.lookup key := by
  have hlookup := (h.mutableLookup key).1
  rw [← hlookup, LruCache.mutableLookup, LruCache.lookupWithoutInsert]
  cases c.lookupInternal key <;> rfl

theorem Represents.erase (h : Represents c limit entries) (key : κ) :
    ∃ c', c.erase key = some ((entries.lookup key).isSome, c') ∧
      Represents c' limit (entries.erase key) := by
  obtain ⟨lru, free, hlists, hentries⟩ := h.lists
  cases hkey : c.table.lookup key with
  | none =>
    have habsent := hlists.absent hentries hkey
    rw [RecencyList.lookup, find_absent habsent, erase_of_forall_ne habsent]
    refine ⟨c, ?_, h⟩
    rw [LruCache.erase, lookupInternal, hkey]
    rfl
  | some e =>
    obtain ⟨as, bs, es₁, es₂, v, rfl, rfl, has, hbs, hentry, hne⟩ := hlists.split hentries hkey
    obtain ⟨c', hevict, hlists', hblocks, hentry', hlength⟩ := hlists.evict
    rw [RecencyList.lookup, find_split hne, erase_split hne]
    refine ⟨c', ?_, h.sized.congr hblocks hlength, as ++ bs, e :: free, hlists', ?_⟩
    · rw [LruCache.erase, lookupInternal, hkey]
      exact hevict
    · rw [hentry', List.map_append, List.map_append, has, hbs]

theorem Represents.clear (h : Represents c limit entries) :
    ∃ c', c.clear = some c' ∧ Represents c' limit [] := by
  obtain ⟨lru, free, hlists, -⟩ := h.lists
  obtain ⟨c', hclear, hlists', hblocks, hlength⟩ := hlists.clear
  exact ⟨c', hclear, h.sized.congr hblocks hlength, [], _, hlists', rfl⟩

variable [Inhabited κ] [Inhabited ν]

theorem Lists.addBlock (h : Lists c lru [] []) (hsized : Sized c limit) :
    ∃ free, Lists c.addBlock lru free [] ∧ Sized c.addBlock limit ∧
      (∀ y ∈ lru, c.addBlock.entry y = c.entry y) ∧ (free = [] → lru.length = limit) := by
  have hlru : lru.length = c.elements.length := by
    simpa using h.perm.length_eq
  rw [LruCache.addBlock]
  by_cases hroom : c.HasRoom
  · rw [if_pos hroom]
    obtain ⟨fresh, hfresh, hlists, hblocks, hlength, hentry⟩ := h.addElements c.nextBlockSize
    rw [List.append_nil] at hlists
    have hcap := Blocks.capacity_grow hsized.sound hroom
    refine ⟨fresh, ⟨hlists.holds, hlists.linked, hlists.cleared, hlists.detached, hlists.perm,
      hlists.table⟩, ⟨hsized.sound.grow hroom, ?_, ?_⟩, hentry, ?_⟩
    · exact hlength.trans (by rw [hsized.length]; exact hcap.symm)
    · exact (Blocks.limit_grow hroom).trans hsized.limit
    · rintro rfl
      have hzero : c.nextBlockSize = 0 := hfresh.symm
      rw [hlru, hsized.length, ← hsized.limit, Blocks.limit_of_zero hsized.sound hzero]
  · rw [if_neg hroom]
    refine ⟨[], h, hsized, fun _ _ => rfl, fun _ => ?_⟩
    rw [hlru, hsized.length, ← hsized.limit, Blocks.limit_of_not_room hroom]

theorem Lists.nextFreeElement (h : Lists c lru free []) (hsized : Sized c limit) :
    (∃ e c' free', c.nextFreeElement = some (some e, c') ∧ Lists c' lru free' [e] ∧
      Sized c' limit ∧ (∀ y ∈ lru, c'.entry y = c.entry y) ∧ lru.length < limit) ∨
    ∃ c', c.nextFreeElement = some (none, c') ∧ Lists c' lru [] [] ∧ Sized c' limit ∧
      (∀ y ∈ lru, c'.entry y = c.entry y) ∧ lru.length = limit := by
  cases free with
  | cons e free =>
    obtain ⟨c', hpop, hlists, hsame⟩ := h.popFreeList_cons
    have hsized' := hsized.congr hsame.blocks hsame.length
    refine Or.inl ⟨e, c', free, ?_, hlists, hsized', fun y _ => congrFun hsame.entry y,
      hlists.length_lt hsized'⟩
    rw [LruCache.nextFreeElement, hpop]
    rfl
  | nil =>
    obtain ⟨free, hlists, hsized', hentry, hfull⟩ := h.addBlock hsized
    have hnext : c.nextFreeElement = c.addBlock.popFreeList := by
      rw [LruCache.nextFreeElement, h.popFreeList_nil]
      rfl
    cases free with
    | nil =>
      refine Or.inr ⟨c.addBlock, ?_, hlists, hsized', hentry, hfull rfl⟩
      rw [hnext, hlists.popFreeList_nil]
    | cons e free =>
      obtain ⟨c', hpop, hlists', hsame⟩ := hlists.popFreeList_cons
      have hsized'' := hsized'.congr hsame.blocks hsame.length
      refine Or.inl ⟨e, c', free, hnext.trans hpop, hlists', hsized'', fun y hy => ?_,
        hlists'.length_lt hsized''⟩
      exact (congrFun hsame.entry y).trans (hentry y hy)

theorem Lists.takeElement (h : Lists c lru free []) (hentries : lru.map c.entry = entries.map some)
    (hsized : Sized c limit) (hpos : 0 < limit) (hkey : c.table.lookup key = none) :
    ∃ e c' lru' free', c.takeElement = some (e, c') ∧ Lists c' lru' free' [e] ∧ Sized c' limit ∧
      lru'.map c'.entry =
        (if entries.length < limit then entries else entries.dropLast).map some ∧
      c'.table.lookup key = none := by
  have hlength : lru.length = entries.length := by
    have := congrArg List.length hentries
    rwa [List.length_map, List.length_map] at this
  rcases h.nextFreeElement hsized with ⟨e, c', free', hnext, hlists, hsized', hentry, hlt⟩ |
    ⟨c', hnext, hlists, hsized', hentry, hfull⟩
  · refine ⟨e, c', lru, free', ?_, hlists, hsized', ?_, ?_⟩
    · rw [LruCache.takeElement, hnext]
      rfl
    · rw [if_pos (hlength ▸ hlt), ← hentries]
      exact List.map_congr_left hentry
    · rw [h.lookup_congr hlists hentry, hkey]
  · obtain ⟨as, t, rfl⟩ : ∃ as t, lru = as ++ [t] :=
      (List.eq_nil_or_concat' lru).resolve_left fun hnil => by
        rw [hnil] at hfull
        exact hpos.ne hfull
    obtain ⟨es, x, rfl⟩ : ∃ es x, entries = es ++ [x] :=
      (List.eq_nil_or_concat' entries).resolve_left fun hnil => by
        rw [hnil, List.length_append] at hlength
        exact Nat.succ_ne_zero _ hlength
    have htail : c'.lruTail = some t := by
      have := hlists.holds.backward.start_eq
      rwa [List.reverse_append, List.reverse_singleton] at this
    obtain ⟨c₁, hevict, hlists₁, hblocks, hentry₁, hlength₁⟩ := hlists.evict
    rw [List.append_nil] at hlists₁
    obtain ⟨c₂, hpop, hlists₂, hsame⟩ := hlists₁.popFreeList_cons
    have hnext₂ : c₁.nextFreeElement = some (some t, c₂) := by
      rw [LruCache.nextFreeElement, hpop]
      rfl
    have hentry₂ : ∀ y ∈ as, c₂.entry y = c.entry y := by
      intro y hy
      rw [hsame.entry, hentry₁]
      exact hentry y (List.mem_append_left _ hy)
    refine ⟨t, c₂, as, [], ?_, hlists₂, (hsized'.congr hblocks hlength₁).congr hsame.blocks
      hsame.length, ?_, ?_⟩
    · rw [LruCache.takeElement, hnext]
      simp [htail, hevict, hnext₂]
    · rw [List.map_append, List.map_append] at hentries
      rw [if_neg (by omega), List.dropLast_concat, ← (List.append_inj' hentries rfl).1]
      exact List.map_congr_left hentry₂
    · by_contra hsome
      obtain ⟨y, hy⟩ := Option.ne_none_iff_exists'.mp hsome
      obtain ⟨hmem, hfst⟩ := (hlists₂.table key y).mp hy
      rw [hentry₂ y hmem] at hfst
      have := (h.table key y).mpr ⟨List.mem_append_left _ hmem, hfst⟩
      rw [hkey] at this
      exact Option.some_ne_none y this.symm

theorem Represents.insert (h : Represents c limit entries) (hpos : 0 < limit) (key : κ)
    (value : ν) :
    ∃ c', c.insert key value = some c' ∧ Represents c' limit (entries.insert limit key value) := by
  obtain ⟨lru, free, hlists, hentries⟩ := h.lists
  obtain ⟨c₁, lru₁, free₁, hevict, hlists₁, hsized₁, hentries₁, hkey₁⟩ :=
    hlists.evictKey hentries h.sized key
  obtain ⟨e, c₂, lru₂, free₂, htake, hlists₂, hsized₂, hentries₂, hkey₂⟩ :=
    hlists₁.takeElement hentries₁ hsized₁ hpos hkey₁
  obtain ⟨c₃, hc₃, hlists₃, hblocks₃, hlength₃, hfst, hentry₃⟩ := hlists₂.push hkey₂
  obtain ⟨hlists₄, hblocks₄, hlength₄, hself, hother⟩ := hlists₃.setValue e value
  have hnotMem : e ∉ lru₂ := hlists₂.notMem_lru (by simp)
  refine ⟨c₃.setValue e value, ?_, (hsized₂.congr hblocks₃ hlength₃).congr hblocks₄ hlength₄,
    e :: lru₂, free₂, hlists₄, ?_⟩
  · rw [LruCache.insert, insertKey, hevict]
    simp [htake, hc₃]
  · obtain ⟨⟨k, v⟩, hentry, hk⟩ := Option.map_eq_some_iff.mp hfst
    obtain rfl : k = key := hk
    rw [List.map_cons, RecencyList.insert, List.map_cons, ← hentries₂, hself, hentry]
    refine congrArg (some (k, value) :: ·) (List.map_congr_left fun y hy => ?_)
    rw [hother y (ne_of_mem_of_not_mem hy hnotMem), hentry₃ y hy]

theorem Represents.step (h : Represents c limit entries) (hpos : 0 < limit) (op : Op κ ν) :
    ∃ c', c.step op = some ((RecencyList.step limit op entries).1, c') ∧
      Represents c' limit (RecencyList.step limit op entries).2 := by
  cases op with
  | insert key value =>
    obtain ⟨c', hinsert, h'⟩ := h.insert hpos key value
    exact ⟨c', by rw [LruCache.step, hinsert]; rfl, h'⟩
  | lookup key =>
    obtain ⟨hvalue, h'⟩ := h.mutableLookup key
    exact ⟨_, by rw [LruCache.step, hvalue]; rfl, h'⟩
  | lookupWithoutInsert key =>
    exact ⟨c, by rw [LruCache.step, h.lookupWithoutInsert]; rfl, h⟩
  | erase key =>
    obtain ⟨c', herase, h'⟩ := h.erase key
    exact ⟨c', by rw [LruCache.step, herase]; rfl, h'⟩
  | clear =>
    obtain ⟨c', hclear, h'⟩ := h.clear
    exact ⟨c', by rw [LruCache.step, hclear]; rfl, h'⟩

theorem Represents.run (h : Represents c limit entries) (hpos : 0 < limit) (ops : List (Op κ ν)) :
    ∃ c', c.run ops = some ((RecencyList.run limit ops entries).1, c') ∧
      Represents c' limit (RecencyList.run limit ops entries).2 := by
  induction ops generalizing c entries with
  | nil => exact ⟨c, rfl, h⟩
  | cons op ops ih =>
    obtain ⟨c₁, hstep, h₁⟩ := h.step hpos op
    obtain ⟨c', hrun, h'⟩ := ih h₁
    refine ⟨c', ?_, h'⟩
    simp [LruCache.run, hstep, hrun, RecencyList.run]

end refinement

section construction

variable {κ ν : Type} [DecidableEq κ] {c : LruCache κ ν} {limit maxElements fuel k : Nat}
  {entries : RecencyList κ ν}

theorem Represents.size_eq (h : Represents c limit entries) : c.size = entries.length := by
  obtain ⟨lru, free, hlists, hentries⟩ := h.lists
  have hlength := congrArg List.length hentries
  rw [List.length_map, List.length_map] at hlength
  rw [← hlength, size]
  -- the pointers of the table are those of the list, each once
  have hperm : (c.table.entries.map Sigma.snd).Perm lru := by
    refine (List.perm_ext_iff_of_nodup ?_ hlists.holds.nodup).mpr fun e => ?_
    · have hkeys : c.table.entries.Nodup := List.NodupKeys.nodup c.table.nodupKeys
      refine hkeys.map_on ?_
      rintro ⟨k, e⟩ hk ⟨k', e'⟩ hk' rfl
      have h₁ := ((hlists.table k e).mp (AList.mem_lookup_iff.mpr hk)).2
      have h₂ := ((hlists.table k' e).mp (AList.mem_lookup_iff.mpr hk')).2
      rw [h₁] at h₂
      rw [Option.some.inj h₂]
    · constructor
      · intro he
        obtain ⟨⟨k, e'⟩, hk, rfl⟩ := List.mem_map.mp he
        exact ((hlists.table k e').mp (AList.mem_lookup_iff.mpr hk)).1
      · intro he
        obtain ⟨x, -, hx⟩ := hlists.entry_isSome (List.mem_append_left _ he)
        have hk := (hlists.table x.key e).mpr ⟨he, by rw [hx]; rfl⟩
        exact List.mem_map.mpr ⟨⟨x.key, e⟩, AList.mem_lookup_iff.mp hk, rfl⟩
  have := hperm.length_eq
  rwa [List.length_map] at this

theorem Represents.length_le (h : Represents c limit entries) : entries.length ≤ limit := by
  obtain ⟨lru, free, hlists, hentries⟩ := h.lists
  have hlength := congrArg List.length hentries
  rw [List.length_map, List.length_map] at hlength
  have hperm := hlists.perm.length_eq
  rw [List.length_append, List.length_range, h.sized.length] at hperm
  have := Blocks.capacity_le_limit h.sized.sound
  rw [h.sized.limit] at this
  omega

theorem firstBlockSize_eq (hmax : maxElements ≤ 2 ^ 63) (hk : k ≤ 53) (hle : 2 ^ k ≤ maxElements)
    (hfuel : 54 - k ≤ fuel) :
    ∃ size, Blocks.firstBlockSize maxElements fuel (2 ^ k) = some size ∧ 0 < size ∧
      size ≤ maxElements := by
  induction fuel generalizing k with
  | zero => omega
  | succ fuel ih =>
    have hpow : 2 ^ (k + 10) ≤ 2 ^ 63 := Nat.pow_le_pow_right (by omega) (by omega)
    have hshift : sizeShiftLeft (2 ^ k) Blocks.maxBlocks = 2 ^ (k + 10) := by
      rw [sizeShiftLeft, Blocks.maxBlocks, Nat.shiftLeft_eq, ← pow_add, Nat.mod_eq_of_lt (by omega)]
    have hmono : 2 ^ (k + 1) ≤ 2 ^ (k + 10) := Nat.pow_le_pow_right (by omega) (by omega)
    have hdouble : sizeShiftLeft (2 ^ k) 1 = 2 ^ (k + 1) := by
      rw [sizeShiftLeft, Nat.shiftLeft_eq, ← pow_add, Nat.mod_eq_of_lt (by omega)]
    rw [Blocks.firstBlockSize, hshift, hdouble]
    by_cases hlt : 2 ^ (k + 10) < maxElements
    · have hk' : k + 10 < 63 :=
        (Nat.pow_lt_pow_iff_right (by omega)).mp (Nat.lt_of_lt_of_le hlt hmax)
      rw [if_pos hlt]
      exact ih (by omega) (hmono.trans hlt.le) (by omega)
    · rw [if_neg hlt]
      exact ⟨2 ^ k, rfl, Nat.two_pow_pos k, hle⟩

theorem firstBlockSize_eq_none (hmax : 2 ^ 63 < maxElements) (fuel k : Nat) :
    Blocks.firstBlockSize maxElements fuel (2 ^ k % 2 ^ 64) = none := by
  induction fuel generalizing k with
  | zero => rfl
  | succ fuel ih =>
    have hshift : ∀ n, sizeShiftLeft (2 ^ k % 2 ^ 64) n = 2 ^ (k + n) % 2 ^ 64 := fun n => by
      rw [sizeShiftLeft, Nat.shiftLeft_eq, Nat.mod_mul_mod, pow_add]
    have hle : ∀ n, 2 ^ n % 2 ^ 64 ≤ 2 ^ 63 := by
      intro n
      rcases Nat.lt_or_ge n 64 with hlt | hge
      · exact (Nat.mod_le _ _).trans (Nat.pow_le_pow_right (by omega) (by omega))
      · rw [Nat.mod_eq_zero_of_dvd (Nat.pow_dvd_pow 2 hge)]
        exact Nat.zero_le _
    rw [Blocks.firstBlockSize, hshift, hshift, if_pos (Nat.lt_of_le_of_lt (hle _) hmax)]
    exact ih (k + 1)

theorem represents_empty {b : Blocks} (hsound : b.Sound) (hcapacity : b.blockCapacity = 0) :
    Represents (⟨b, ∅, none, none, none, []⟩ : LruCache κ ν) b.limit [] := by
  refine ⟨⟨hsound, hcapacity.symm, rfl⟩, [], [], ?_, rfl⟩
  refine ⟨⟨rfl, rfl, List.nodup_nil⟩, rfl, fun _ h => (List.not_mem_nil h).elim,
    fun _ h => (List.not_mem_nil h).elim, List.Perm.refl _, fun k e => ?_⟩
  rw [AList.lookup_empty]
  exact ⟨fun h => (Option.some_ne_none e h.symm).elim, fun h => (List.not_mem_nil h.1).elim⟩

theorem represents_new [Inhabited κ] [Inhabited ν] (hpos : 1 ≤ maxElements)
    (hmax : maxElements ≤ 2 ^ 63) :
    ∃ (c : LruCache κ ν) (limit : Nat), new κ ν 64 maxElements = some c ∧ 0 < limit ∧
      limit ≤ maxElements ∧ Represents c limit [] := by
  obtain ⟨size, hsize, hsizePos, hle⟩ : ∃ size,
      (if maxElements ≤ 128 then some maxElements
        else Blocks.firstBlockSize maxElements 64 64) = some size ∧ 0 < size ∧
        size ≤ maxElements := by
    by_cases hsmall : maxElements ≤ 128
    · exact ⟨maxElements, if_pos hsmall, hpos, le_rfl⟩
    · obtain ⟨size, hsize, hsizePos, hle⟩ := firstBlockSize_eq (k := 6) hmax (by omega)
        (by omega) (Nat.le_of_lt_succ (by decide : 54 - 6 < 64 + 1))
      exact ⟨size, (if_neg hsmall).trans hsize, hsizePos, hle⟩
  obtain ⟨b, hb⟩ : ∃ b : Blocks, b = ⟨maxElements, 0, 0, size⟩ := ⟨_, rfl⟩
  have hinit : Blocks.init 64 maxElements = some b := by
    rw [Blocks.init, hsize, hb]
    rfl
  have hsound : b.Sound := by
    rw [hb]
    exact ⟨by show maxElements < _; omega, Nat.zero_le _, fun _ => by simpa using hle⟩
  have hroom : b.HasRoom := by
    rw [hb]
    exact ⟨by show 0 < 10; omega, hpos⟩
  have hnext : 0 < b.nextBlockSize := by rwa [hb]
  refine ⟨⟨b, ∅, none, none, none, []⟩, b.limit, ?_, Blocks.limit_pos hsound hroom hnext, ?_,
    represents_empty hsound (by rw [hb])⟩
  · rw [new, hinit]
    rfl
  · have := Blocks.limit_le hsound
    rwa [show b.maxElements = maxElements by rw [hb]] at this

/-- The constructor returns, and every run of the cache is one of a recency list, exactly where
the maximum is at most `2 ^ 63`. -/
theorem run_eq_recencyList_iff [Inhabited κ] [Inhabited ν] (hpos : 1 ≤ maxElements)
    (hsize : maxElements < 2 ^ 64) :
    (∃ (fuel : Nat) (c : LruCache κ ν), new κ ν fuel maxElements = some c ∧
      ∃ limit ≤ maxElements, ∀ ops : List (Op κ ν), ∃ c',
        c.run ops = some ((RecencyList.run limit ops []).1, c') ∧
        Represents c' limit (RecencyList.run limit ops []).2 ∧
        c'.size = (RecencyList.run limit ops []).2.length ∧ c'.size ≤ maxElements ∧
        ∀ key, (RecencyList.run limit ops []).2.lookup key =
          RecencyList.lastInserted limit ops [] (fun _ => none) key) ↔
      maxElements ≤ 2 ^ 63 := by
  constructor
  · rintro ⟨fuel, c, hnew, -⟩
    by_contra hlarge
    have hnone : Blocks.init fuel maxElements = none := by
      have hloop := firstBlockSize_eq_none (Nat.lt_of_not_le hlarge) fuel 6
      rw [Blocks.init, if_neg (by omega), show 64 = 2 ^ 6 % 2 ^ 64 from rfl, hloop]
      rfl
    rw [new, hnone] at hnew
    exact Option.some_ne_none c hnew.symm
  · intro hmax
    obtain ⟨c, limit, hnew, hlimit, hle, hrep⟩ := @represents_new κ ν _ _ _ _ hpos hmax
    refine ⟨64, c, hnew, limit, hle, fun ops => ?_⟩
    obtain ⟨c', hrun, hrep'⟩ := hrep.run hlimit ops
    refine ⟨c', hrun, hrep', hrep'.size_eq, ?_, ?_⟩
    · rw [hrep'.size_eq]
      exact hrep'.length_le.trans hle
    · exact RecencyList.lookup_run ops List.nodup_nil fun _ => rfl

theorem run_eq_recencyList_two : ∃ (fuel : Nat) (c : LruCache Nat Nat), new Nat Nat fuel 2 = some c ∧
      ∃ limit ≤ 2, ∀ ops : List (Op Nat Nat), ∃ c',
        c.run ops = some ((RecencyList.run limit ops []).1, c') ∧
        Represents c' limit (RecencyList.run limit ops []).2 ∧
        c'.size = (RecencyList.run limit ops []).2.length ∧ c'.size ≤ 2 ∧
        ∀ key, (RecencyList.run limit ops []).2.lookup key =
          RecencyList.lastInserted limit ops [] (fun _ => none) key :=
  (run_eq_recencyList_iff (by decide) (by decide)).mpr (by decide)

/-- The constructor does not return. -/
theorem new_never_returns : ¬ ∃ fuel, (new Nat Nat fuel (2 ^ 63 + 1)).isSome := by
  rintro ⟨fuel, hsome⟩
  have hloop := firstBlockSize_eq_none (Nat.lt_succ_self (2 ^ 63)) fuel 6
  have hnone : Blocks.init fuel (2 ^ 63 + 1) = none := by
    rw [Blocks.init, if_neg (by decide), show 64 = 2 ^ 6 % 2 ^ 64 from rfl, hloop]
    rfl
  rw [new, hnone] at hsome
  cases hsome

end construction

end LruCache

end Mozkey.Storage
