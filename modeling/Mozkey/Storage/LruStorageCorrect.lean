import Mozkey.Storage.LruStorageItems

/-! Runs of a storage: what every call does to the items, and that a lookup finds what was last
written, as long as the clock fits the 32 bits that an item has for it. -/

namespace Mozkey.Storage

open Lib

namespace LruStorage

section effects

variable {n size : Nat} (fp : Bytes → UInt64) (now : UInt32) {items items' : List (Item n)}
  {header : Nat × UInt32} {s : LruStorage n}

def itemOf (items : List (Item n)) (key : Bytes) : Option (Item n) :=
  items.find? fun x => x.fp = fp key

/-- What a call does to the items, the most recent first, of a storage for `size` items; a new item
in a full storage takes the place of the last one. -/
def Effect (size : Nat) (items items' : List (Item n)) : Op n → Answer → Prop
  | .insert _ none, answer => answer = .ok false ∧ items' = items
  | .insert key (some value), answer => answer = .ok true ∧ items' = ⟨fp key, now, value⟩ ::
      if (itemOf fp items key).isSome then items.filter fun x => x.fp ≠ fp key
      else if items.length < size then items else items.dropLast
  | .tryInsert key value, answer => answer = .ok true ∧ items' =
      if (itemOf fp items key).isSome then
        ⟨fp key, now, value⟩ :: items.filter fun x => x.fp ≠ fp key
      else items
  | .touch key, answer => answer = .ok (itemOf fp items key).isSome ∧ items' =
      match itemOf fp items key with
      | some x => { x with timestamp := now } :: items.filter fun x => x.fp ≠ fp key
      | none => items
  | .delete key, answer => answer = .ok true ∧ items' = items.filter fun x => x.fp ≠ fp key
  | .deleteElementsBefore timestamp, answer =>
    answer = .deleted (items.filter fun x => x.timestamp < timestamp).length ∧
      items' = items.filter fun x => timestamp ≤ x.timestamp
  | .clear, answer => answer = .ok true ∧ items' = []
  | .reopen, answer => answer = .ok true ∧ items'.Perm items

/-- The values last written, after a call, for the keys that it neither deletes nor drops. -/
def record (size : Nat) (items : List (Item n)) (written : Bytes → Option (Vector UInt8 n)) :
    Op n → Bytes → Option (Vector UInt8 n)
  | .insert key (some value), k =>
    if k = key then some value
    else if itemOf fp items key = none ∧ size ≤ items.length ∧
      items.getLast?.map Item.fp = some (fp k) then none
    else written k
  | .tryInsert key value, k =>
    if k = key ∧ (itemOf fp items key).isSome then some value else written k
  | .delete key, k => if k = key then none else written k
  | .deleteElementsBefore timestamp, k =>
    if (itemOf fp items k).any fun x => x.timestamp < timestamp then none else written k
  | .clear, _ => none
  | _, k => written k

/-- The items and the values last written after some calls, from an empty storage. -/
inductive History (size : Nat) : List (Nat × Op n) → List Answer → List (Item n) →
    (Bytes → Option (Vector UInt8 n)) → Prop where
  | start : History size [] [] [] fun _ => none
  | call {calls answers items items' written now op answer}
      (h : History size calls answers items written)
      (heffect : Effect fp (UInt32.ofNat now) size items items' op answer) :
      History size (calls ++ [(now, op)]) (answers ++ [answer]) items'
        (record fp size items written op)

variable {fp now}

theorem Effect.latest {op : Op n} {answer : Answer} (h : Effect fp now size items items' op answer)
    (hlatest : ∀ x ∈ items, x.timestamp ≤ now) : ∀ x ∈ items', x.timestamp ≤ now := by
  have hcons : ∀ {y : Item n} {rest : List (Item n)}, y.timestamp = now → rest ⊆ items →
      ∀ x ∈ y :: rest, x.timestamp ≤ now := by
    intro y rest hy hrest x hx
    rcases List.mem_cons.mp hx with rfl | hx
    · exact hy ▸ UInt32.le_refl _
    · exact hlatest x (hrest hx)
  cases op with
  | insert key value =>
    cases value with
    | none => rwa [h.2]
    | some value =>
      rw [h.2]
      refine hcons rfl ?_
      split
      · exact List.filter_subset_self _
      · split
        · exact List.Subset.refl _
        · exact List.dropLast_subset _
  | tryInsert key value =>
    rw [h.2]
    split
    · exact hcons rfl (List.filter_subset_self _)
    · exact hlatest
  | touch key =>
    rw [h.2]
    split
    · exact hcons rfl (List.filter_subset_self _)
    · exact hlatest
  | delete key =>
    rw [h.2]
    exact fun x hx => hlatest x (List.filter_subset_self _ hx)
  | deleteElementsBefore timestamp =>
    rw [h.2]
    exact fun x hx => hlatest x (List.filter_subset_self _ hx)
  | clear =>
    rw [h.2]
    exact fun x hx => (List.not_mem_nil hx).elim
  | reopen => exact fun x hx => hlatest x (h.2.mem_iff.mp hx)

def Op.keys : Op n → List Bytes
  | .insert key _ => [key]
  | .tryInsert key _ => [key]
  | .touch key => [key]
  | .delete key => [key]
  | _ => []

theorem Effect.lookup {op : Op n} {answer : Answer}
    {written : Bytes → Option (Vector UInt8 n)} (h : Effect fp now size items items' op answer)
    (hfps : (items.map Item.fp).Nodup) {k : Bytes}
    (hk : ∀ key ∈ op.keys, fp k = fp key → k = key)
    (hwritten : (itemOf fp items k).map Item.value = written k) :
    (itemOf fp items' k).map Item.value = record fp size items written op k := by
  cases op with
  | insert key value =>
    cases value with
    | none => rw [h.2]; exact hwritten
    | some value =>
      have hkey := hk key List.mem_cons_self
      rw [h.2, itemOf, find?_cons_key, record]
      by_cases heq : k = key
      · rw [if_pos (by rw [heq]), if_pos heq]
        rfl
      · rw [if_neg fun hfp => heq (hkey hfp.symm), if_neg heq]
        cases hitem : itemOf fp items key with
        | some x =>
          have hfull : ¬ (some x = none ∧ size ≤ items.length ∧
              items.getLast?.map Item.fp = some (fp k)) := fun hnone => Option.some_ne_none x hnone.1
          have hpresent : (some x).isSome = true := rfl
          rw [if_neg hfull, if_pos hpresent, find?_filter_ne, if_neg fun hfp => heq (hkey hfp)]
          exact hwritten
        | none =>
          show (List.find? _ (if items.length < size then items else items.dropLast)).map _ = _
          by_cases hlt : items.length < size
          · rw [if_pos hlt, if_neg fun hfull => Nat.not_le_of_lt hlt hfull.2.1]
            exact hwritten
          · rw [if_neg hlt]
            rcases List.eq_nil_or_concat' items with rfl | ⟨es, x, rfl⟩
            · rw [if_neg (by rintro ⟨-, -, hlast⟩; exact Option.some_ne_none _ hlast.symm)]
              exact hwritten
            · rw [List.dropLast_concat, List.getLast?_concat, find?_concat hfps]
              by_cases hx : x.fp = fp k
              · rw [if_pos hx, if_pos ⟨rfl, Nat.le_of_not_lt hlt, congrArg some hx⟩]
                rfl
              · rw [if_neg hx, if_neg fun hfull => hx (Option.some.inj hfull.2.2)]
                exact hwritten
  | tryInsert key value =>
    have hkey := hk key List.mem_cons_self
    rw [h.2, record]
    by_cases hitem : (itemOf fp items key).isSome
    · rw [if_pos hitem, itemOf, find?_cons_key]
      by_cases heq : k = key
      · rw [if_pos (by rw [heq]), if_pos ⟨heq, hitem⟩]
        rfl
      · rw [if_neg fun hfp => heq (hkey hfp.symm), if_neg fun hpos => heq hpos.1,
          find?_filter_ne, if_neg fun hfp => heq (hkey hfp)]
        exact hwritten
    · rw [if_neg hitem, if_neg fun hpos => hitem hpos.2]
      exact hwritten
  | touch key =>
    have hkey := hk key List.mem_cons_self
    rw [h.2]
    cases hitem : itemOf fp items key with
    | none => exact hwritten
    | some x =>
      show (List.find? _ (_ :: items.filter fun x => x.fp ≠ fp key)).map Item.value = written k
      have hx : x.fp = fp key := ((find?_eq_some_iff_mem hfps).mp hitem).2
      rw [find?_cons_key, find?_filter_ne]
      by_cases heq : k = key
      · subst heq
        rw [if_pos hx, ← hwritten, hitem]
        rfl
      · rw [if_neg fun hfp => heq (hkey (hfp.symm.trans hx)), if_neg fun hfp => heq (hkey hfp)]
        exact hwritten
  | delete key =>
    have hkey := hk key List.mem_cons_self
    rw [h.2, itemOf, find?_filter_ne, record]
    by_cases heq : k = key
    · rw [if_pos (by rw [heq]), if_pos heq]
      rfl
    · rw [if_neg fun hfp => heq (hkey hfp), if_neg heq]
      exact hwritten
  | deleteElementsBefore timestamp =>
    rw [h.2, itemOf, find?_filter_of_nodup hfps, record]
    cases hitem : itemOf fp items k with
    | none =>
      rw [itemOf] at hitem
      rw [hitem]
      rw [itemOf, hitem] at hwritten
      exact hwritten
    | some x =>
      rw [itemOf] at hitem
      rw [itemOf, hitem] at hwritten
      rw [hitem, ← hwritten]
      by_cases hold : x.timestamp < timestamp
      · simp [hold]
      · have hle : timestamp ≤ x.timestamp := UInt32.not_lt.mp hold
        simp [hold, hle]
  | clear => rw [h.2]; rfl
  | reopen =>
    rw [itemOf, find?_congr_perm hfps h.2]
    exact hwritten

theorem Holds.step (h : Holds header s items) {time : Nat} (hnow : UInt32.ofNat time ≠ 0)
    (hlatest : ∀ x ∈ items, x.timestamp ≤ UInt32.ofNat time)
    (fingerprint : Bytes → UInt32 → UInt64) (op : Op n) :
    ∃ answer s' items', s.step fingerprint time op = some (answer, s') ∧ Holds header s' items' ∧
      Effect (fingerprint · header.2) (UInt32.ofNat time) header.1 items items' op answer := by
  have hseed : s.file.seed = header.2 := by rw [← h.header]
  cases op with
  | insert key value =>
    cases value with
    | none => exact ⟨_, s, items, rfl, h, rfl, rfl⟩
    | some value =>
      obtain ⟨s', hinsert, h'⟩ := h.insert hnow hlatest (fingerprint key header.2) value
      refine ⟨.ok true, s', _, ?_, h', rfl, rfl⟩
      rw [LruStorage.step, hseed, hinsert]
      rfl
  | tryInsert key value =>
    obtain ⟨s', htry, h'⟩ := h.tryInsert hnow hlatest (fingerprint key header.2) value
    refine ⟨.ok true, s', _, ?_, h', rfl, rfl⟩
    rw [LruStorage.step, hseed, htry]
    rfl
  | touch key =>
    obtain ⟨s', htouch, h'⟩ := h.touch hnow hlatest (fingerprint key header.2)
    refine ⟨_, s', _, ?_, h', rfl, rfl⟩
    rw [LruStorage.step, hseed, htouch]
    rfl
  | delete key =>
    obtain ⟨s', hdelete, h'⟩ := h.delete (fingerprint key header.2)
    refine ⟨.ok true, s', _, ?_, h', rfl, rfl⟩
    rw [LruStorage.step, hseed, hdelete]
    rfl
  | deleteElementsBefore timestamp =>
    obtain ⟨s', hdelete, h'⟩ := h.deleteElementsBefore timestamp
    refine ⟨_, s', _, ?_, h', rfl, rfl⟩
    rw [LruStorage.step, hdelete]
    rfl
  | clear =>
    obtain ⟨s', hclear, h'⟩ := h.clear
    refine ⟨.ok true, s', [], ?_, h', rfl, rfl⟩
    rw [LruStorage.step, hclear]
    rfl
  | reopen =>
    obtain ⟨s', items', hreopen, h', hperm⟩ := h.reopen
    refine ⟨.ok true, s', items', ?_, h', rfl, hperm⟩
    rw [LruStorage.step, hreopen]
    rfl

/-- The clock is positive, fits 32 bits and does not go back. -/
structure Clock (calls : List (Nat × Op n)) : Prop where
  pos : ∀ c ∈ calls, 0 < c.1
  lt : ∀ c ∈ calls, c.1 < 2 ^ 32
  mono : (calls.map Prod.fst).Pairwise (· ≤ ·)

theorem run_append (fingerprint : Bytes → UInt32 → UInt64) {calls calls' : List (Nat × Op n)}
    {s s' : LruStorage n} {answers : List Answer} (h : run fingerprint calls s = some (answers, s')) :
    run fingerprint (calls ++ calls') s =
      (run fingerprint calls' s').map fun r => (answers ++ r.1, r.2) := by
  induction calls generalizing s answers with
  | nil =>
    obtain ⟨rfl, rfl⟩ := Prod.mk.inj (Option.some.inj h)
    rw [List.nil_append]
    cases run fingerprint calls' s <;> rfl
  | cons c calls ih =>
    obtain ⟨now, op⟩ := c
    rw [List.cons_append, run]
    rw [run] at h
    cases hstep : s.step fingerprint now op with
    | none => rw [hstep] at h; cases h
    | some r =>
      obtain ⟨answer, s₁⟩ := r
      rw [hstep] at h
      simp only [Option.bind_eq_bind, Option.bind_some] at h ⊢
      cases hrun : run fingerprint calls s₁ with
      | none => rw [hrun] at h; cases h
      | some r =>
        obtain ⟨answers₁, s₂⟩ := r
        rw [hrun] at h
        obtain ⟨rfl, rfl⟩ := Prod.mk.inj (Option.some.inj h)
        rw [ih hrun]
        cases run fingerprint calls' s₂ <;> rfl

theorem ofNat_le {a b : Nat} (h : a ≤ b) (hb : b < 2 ^ 32) : UInt32.ofNat a ≤ UInt32.ofNat b := by
  rw [UInt32.le_iff_toNat_le, UInt32.toNat_ofNat', UInt32.toNat_ofNat', Nat.mod_eq_of_lt hb,
    Nat.mod_eq_of_lt (Nat.lt_of_le_of_lt h hb)]
  exact h

theorem ofNat_ne_zero {a : Nat} (hpos : 0 < a) (ha : a < 2 ^ 32) : UInt32.ofNat a ≠ 0 := by
  intro hzero
  have hnat := congrArg UInt32.toNat hzero
  rw [UInt32.toNat_ofNat', Nat.mod_eq_of_lt ha] at hnat
  exact hpos.ne' hnat

theorem openFile_created {seed : UInt32} {file : StorageFile n}
    (hfile : StorageFile.createStorageFile n size seed = some file) :
    ∃ s₀, openFile file = some s₀ ∧ Holds (size, seed) s₀ [] := by
  rw [StorageFile.createStorageFile] at hfile
  split at hfile
  · cases hfile
  rename_i hvalue
  split at hfile
  · cases hfile
  rename_i hsize
  split at hfile
  · cases hfile
  rename_i haligned
  cases hfile
  have hzero : ∀ i, 0 ≤ i → (⟨size, seed, List.replicate size (Item.zero n)⟩ :
      StorageFile n).item i = Item.zero n := by
    intro i _
    rw [StorageFile.item, List.getD_eq_getElem?_getD, List.getElem?_getD_replicate_default_eq]
  obtain ⟨s₀, items, hopen, h, hperm⟩ := openFile_eq
    ⟨not_not.mp haligned, hvalue, hsize, List.length_replicate⟩ (Nat.zero_le _)
    (fun i hi => (Nat.not_lt_zero i hi).elim) hzero List.nodup_nil
  obtain rfl : items = [] := hperm.eq_nil
  exact ⟨s₀, hopen, h⟩

/-- Every run leaves the slots, the list and the map in step, does to the items what its calls say,
and finds the values last written. -/
theorem run_keeps_items {seed : UInt32} {file : StorageFile n}
    (hfile : StorageFile.createStorageFile n size seed = some file)
    (fingerprint : Bytes → UInt32 → UInt64) {keys : Set Bytes}
    (hkeys : Set.InjOn (fingerprint · seed) keys) {calls : List (Nat × Op n)}
    (hin : ∀ c ∈ calls, ∀ key ∈ c.2.keys, key ∈ keys) (hclock : Clock calls) :
    ∃ s₀, openFile file = some s₀ ∧ ∃ answers s items written,
      run fingerprint calls s₀ = some (answers, s) ∧ Holds (size, seed) s items ∧
      History (fingerprint · seed) size calls answers items written ∧
      s.usedSize = items.length ∧ s.usedSize ≤ s.file.size ∧
      ∀ key ∈ keys, s.lookup (fingerprint key seed) = written key := by
  obtain ⟨s₀, hopen, h₀⟩ := openFile_created hfile
  refine ⟨s₀, hopen, ?_⟩
  suffices hrun : ∃ answers s items written,
      run fingerprint calls s₀ = some (answers, s) ∧ Holds (size, seed) s items ∧
      History (fingerprint · seed) size calls answers items written ∧
      (∀ time, (∀ c ∈ calls, c.1 ≤ time) → time < 2 ^ 32 →
        ∀ x ∈ items, x.timestamp ≤ UInt32.ofNat time) ∧
      ∀ key ∈ keys, (itemOf (fingerprint · seed) items key).map Item.value = written key by
    obtain ⟨answers, s, items, written, hrun, h, hhistory, -, hwritten⟩ := hrun
    have hused : s.usedSize = items.length := by rw [usedSize, h.eq_map, List.length_map]
    refine ⟨answers, s, items, written, hrun, h, hhistory, hused, ?_, fun key hkey => ?_⟩
    · rw [hused, h.length_eq, ← h.sound.length]
      exact h.le
    · rw [h.lookup_eq]
      exact hwritten key hkey
  induction calls using List.reverseRecOn with
  | nil =>
    exact ⟨[], s₀, [], _, rfl, h₀, .start, fun _ _ _ x hx => (List.not_mem_nil hx).elim,
      fun _ _ => rfl⟩
  | append_singleton calls c ih =>
    obtain ⟨now, op⟩ := c
    have hlast : (now, op) ∈ calls ++ [(now, op)] := List.mem_concat_self
    have hsub : ∀ c ∈ calls, c ∈ calls ++ [(now, op)] := fun c hc => List.mem_append_left _ hc
    have hmono := hclock.mono
    rw [List.map_append, List.map_singleton, List.pairwise_append] at hmono
    obtain ⟨answers, s, items, written, hrun, h, hhistory, hlatest, hwritten⟩ := ih
      (fun c hc => hin c (hsub c hc))
      ⟨fun c hc => hclock.pos c (hsub c hc), fun c hc => hclock.lt c (hsub c hc), hmono.1⟩
    have hnow := hlatest now (fun c hc => hmono.2.2 c.1 (List.mem_map_of_mem hc) now
      (List.mem_singleton.mpr rfl)) (hclock.lt _ hlast)
    obtain ⟨answer, s', items', hstep, h', heffect⟩ := h.step
      (ofNat_ne_zero (hclock.pos _ hlast) (hclock.lt _ hlast)) hnow fingerprint op
    refine ⟨answers ++ [answer], s', items', _, ?_, h', .call hhistory heffect, ?_, ?_⟩
    · rw [run_append fingerprint hrun, run, hstep]
      rfl
    · intro time hle htime x hx
      exact UInt32.le_trans (heffect.latest hnow x hx) (ofNat_le (hle _ hlast) htime)
    · intro key hkey
      refine heffect.lookup h.fps_nodup (fun key' hkey' heq => ?_) (hwritten key hkey)
      exact hkeys hkey (hin _ hlast key' hkey') heq

/-- Two keys in a storage for one item: the second insertion drops the first. -/
theorem run_keeps_items_one_slot : ∃ s₀,
    openFile ⟨1, 7, [Item.zero 4]⟩ = some s₀ ∧ ∃ answers s items written,
      run (fun key _ => UInt64.ofNat key.length)
        [(5, .insert [] (some (Vector.replicate 4 1))), (5, .insert [97] (some (Vector.replicate 4 2))),
          (6, .reopen)] s₀ = some (answers, s) ∧ Holds (1, 7) s items ∧
      History (fun key => UInt64.ofNat key.length) 1
        [(5, .insert [] (some (Vector.replicate 4 1))), (5, .insert [97] (some (Vector.replicate 4 2))),
          (6, .reopen)] answers items written ∧
      s.usedSize = items.length ∧ s.usedSize ≤ s.file.size ∧
      ∀ key ∈ ({[], [97]} : Set Bytes), s.lookup (UInt64.ofNat key.length) = written key := by
  have hfile : StorageFile.createStorageFile 4 1 7 = some ⟨1, 7, [Item.zero 4]⟩ := by decide
  have hkeys : Set.InjOn (fun key : Bytes => UInt64.ofNat key.length) {[], [97]} := by
    rintro k (rfl | rfl) k' (rfl | rfl) heq
    · rfl
    · exact absurd heq (by decide)
    · exact absurd heq (by decide)
    · rfl
  exact run_keeps_items hfile (fun key _ => UInt64.ofNat key.length) hkeys (by simp [Op.keys])
    ⟨by decide, by decide, by decide⟩

/-- At the time `2 ^ 32` an item gets the timestamp zero, and is not there after the file is opened
again. -/
theorem reopen_forgets_at_wrapped_clock : ∃ s₀ s s' : LruStorage 4,
    (StorageFile.createStorageFile 4 1 7).bind openFile = some s₀ ∧
      run (fun _ _ => 5) [(2 ^ 32, .insert [97] (some (Vector.replicate 4 1)))] s₀ =
        some ([.ok true], s) ∧
      s.lookup 5 = some (Vector.replicate 4 1) ∧
      run (fun _ _ => 5) [(2 ^ 32, .reopen)] s = some ([.ok true], s') ∧ s'.lookup 5 = none := by
  refine ⟨_, _, _, rfl, rfl, ?_, rfl, ?_⟩
  · decide
  · decide

end effects

end LruStorage

end Mozkey.Storage
