import Mozkey.Storage.LruCacheCorrect

/-! Whether the ten blocks of an `LruCache` add up to its maximum.  The first block is the least
that may do if each block is twice as large as the one before, up to 1024 of it; but ten such blocks
are only 1023 of it. -/

namespace Mozkey.Storage

namespace Blocks

variable {b : Blocks} {k n r fuel size : Nat}

theorem sizeShiftLeft_two_pow {i j : Nat} (h : i + j < 64) :
    sizeShiftLeft (2 ^ i) j = 2 ^ (i + j) := by
  rw [sizeShiftLeft, Nat.shiftLeft_eq, ← pow_add]
  exact Nat.mod_eq_of_lt (Nat.pow_lt_pow_right (by omega) h)

theorem next_grow_eq (h : b.Sound) (hroom : b.HasRoom) (hmax : b.maxElements ≤ 2 ^ 63)
    (hr : maxBlocks - b.blockCount = r + 1) (hpos : 1 ≤ r)
    (hnext : b.nextBlockSize + r ≤ b.maxElements - b.blockCapacity) :
    b.grow.nextBlockSize =
      min (2 * b.nextBlockSize) ((b.maxElements - (b.blockCapacity + b.nextBlockSize)) / r) := by
  have hlt := h.lt_size
  have hle := h.next_le hroom.1
  have hcapacity : sizeAdd b.blockCapacity b.nextBlockSize = b.blockCapacity + b.nextBlockSize :=
    capacity_grow h hroom
  have hremaining : maxBlocks - (b.blockCount + 1) = r := by omega
  have hdoubled : sizeShiftLeft b.nextBlockSize 1 = 2 * b.nextBlockSize := by
    rw [sizeShiftLeft, Nat.shiftLeft_eq, Nat.mod_eq_of_lt (by omega)]
    omega
  have hmissing : sizeSub b.maxElements (b.blockCapacity + b.nextBlockSize) =
      b.maxElements - (b.blockCapacity + b.nextBlockSize) := sizeSub_eq hle hlt
  rw [grow]
  simp only [hcapacity, hremaining, hdoubled, hmissing]
  have hshare := Nat.div_le_self (b.maxElements - (b.blockCapacity + b.nextBlockSize)) r
  generalize (b.maxElements - (b.blockCapacity + b.nextBlockSize)) / r = share at hshare ⊢
  have hbounded : (if 2 * b.nextBlockSize > share then share else 2 * b.nextBlockSize) =
      min (2 * b.nextBlockSize) share := by
    split <;> omega
  rw [if_pos (by omega), hbounded, if_neg]
  rw [sizeAdd_eq (by omega)]
  omega

theorem two_mul_succ_le_two_pow (r : Nat) : 2 * (r + 1) ≤ 2 ^ (r + 1) := by
  have := Nat.lt_two_pow_self (n := r)
  rw [pow_succ]
  omega

theorem limit_eq_max_iff (h : b.Sound) (hmax : b.maxElements ≤ 2 ^ 63)
    (hr : maxBlocks - b.blockCount = r + 1) (hpos : 1 ≤ b.nextBlockSize)
    (hnext : b.nextBlockSize + r ≤ b.maxElements - b.blockCapacity) :
    b.limit = b.maxElements ↔
      b.maxElements - b.blockCapacity ≤ (2 ^ (r + 1) - 1) * b.nextBlockSize := by
  induction r generalizing b with
  | zero =>
    have hroom : b.HasRoom := ⟨by omega, by omega⟩
    have hle := h.next_le hroom.1
    have hfull : ¬ b.grow.HasRoom := fun hroom' => by
      have : b.blockCount + 1 < maxBlocks := hroom'.1
      omega
    rw [← limit_grow hroom, limit_of_not_room hfull, capacity_grow h hroom]
    omega
  | succ r ih =>
    have hroom : b.HasRoom := ⟨by omega, by omega⟩
    have hle := h.next_le hroom.1
    have hgrow := next_grow_eq h hroom hmax hr (by omega) hnext
    have hcount : maxBlocks - b.grow.blockCount = r + 1 := by
      show maxBlocks - (b.blockCount + 1) = r + 1
      omega
    obtain ⟨missing, hmissing⟩ : ∃ missing, missing =
      b.maxElements - (b.blockCapacity + b.nextBlockSize) := ⟨_, rfl⟩
    have hmissing' : b.grow.maxElements - b.grow.blockCapacity = missing := by
      rw [capacity_grow h hroom, hmissing]
      rfl
    have htotal : b.maxElements - b.blockCapacity = missing + b.nextBlockSize := by omega
    rw [← hmissing] at hgrow
    have hshare : missing / (r + 1) * (r + 1) ≤ missing := Nat.div_mul_le_self _ _
    have hshare' : missing < (missing / (r + 1) + 1) * (r + 1) :=
      Nat.lt_mul_of_div_lt (Nat.lt_succ_self _) (Nat.succ_pos r)
    have hsharePos : 1 ≤ missing / (r + 1) := (Nat.one_le_div_iff (Nat.succ_pos r)).mpr (by omega)
    generalize missing / (r + 1) = share at hgrow hshare hshare' hsharePos
    have hnextPos : 1 ≤ b.grow.nextBlockSize := by omega
    have hnext' : b.grow.nextBlockSize + r ≤ missing := by
      have : share + r ≤ share * (r + 1) := by nlinarith
      omega
    have hrest := ih (h.grow hroom) hmax hcount hnextPos (hmissing'.symm ▸ hnext')
    rw [limit_grow hroom, hmissing', hgrow] at hrest
    have hpow := two_mul_succ_le_two_pow r
    rw [show b.grow.maxElements = b.maxElements from rfl] at hrest
    rw [hrest, htotal, pow_succ 2 (r + 1), Nat.sub_one_mul, Nat.sub_one_mul]
    generalize 2 ^ (r + 1) = p at hpow
    rcases Nat.le_total (2 * b.nextBlockSize) share with hdouble | hcapped
    · -- the next block is twice as large: the bounds say the same
      rw [Nat.min_eq_left hdouble, Nat.mul_left_comm, Nat.mul_right_comm]
      have : b.nextBlockSize ≤ p * b.nextBlockSize := Nat.le_mul_of_pos_left _ (by omega)
      omega
    · -- the blocks that are left share what is missing, which both bounds allow
      rw [Nat.min_eq_right hcapped]
      have hleft : missing ≤ p * share - share := by
        have : 2 * (r + 1) * share ≤ p * share := Nat.mul_le_mul_right _ hpow
        nlinarith [Nat.sub_add_cancel (Nat.le_mul_of_pos_left share (show 0 < p by omega))]
      have hright : missing + b.nextBlockSize ≤ p * 2 * b.nextBlockSize - b.nextBlockSize := by
        have hcap : (share + 1) * (r + 1) ≤ (2 * b.nextBlockSize + 1) * (r + 1) :=
          Nat.mul_le_mul_right _ (Nat.succ_le_succ hcapped)
        have hbound : 4 * (r + 1) * b.nextBlockSize ≤ p * 2 * b.nextBlockSize :=
          Nat.mul_le_mul_right _ (by omega)
        have hr : r * 1 ≤ r * b.nextBlockSize := Nat.mul_le_mul_left _ hpos
        apply Nat.le_sub_of_add_le
        nlinarith
      exact iff_of_true hleft hright

theorem firstBlockSize_spec (hmax : n ≤ 2 ^ 63) (hk : k ≤ 53) (hle : 2 ^ k ≤ n)
    (h : firstBlockSize n fuel (2 ^ k) = some size) :
    ∃ j ≥ k, size = 2 ^ j ∧ 2 ^ j ≤ n ∧ n ≤ 2 ^ (j + 10) ∧ (j = k ∨ 2 ^ (j + 9) < n) := by
  induction fuel generalizing k with
  | zero => cases h
  | succ fuel ih =>
    have hpow : 2 ^ (k + 10) ≤ 2 ^ 63 := Nat.pow_le_pow_right (by omega) (by omega)
    have hdouble : 2 ^ (k + 1) ≤ 2 ^ (k + 10) := Nat.pow_le_pow_right (by omega) (by omega)
    rw [firstBlockSize, sizeShiftLeft_two_pow (by rw [maxBlocks]; omega),
      sizeShiftLeft_two_pow (by omega)] at h
    split at h
    · rename_i hlt
      have hlt : 2 ^ (k + 10) < n := hlt
      have hk' : k + 10 < 63 :=
        (Nat.pow_lt_pow_iff_right (by omega)).mp (Nat.lt_of_lt_of_le hlt hmax)
      obtain ⟨j, hj, hsize, hle', hdo, hleast⟩ := ih (by omega) (hdouble.trans hlt.le) h
      refine ⟨j, by omega, hsize, hle', hdo, .inr ?_⟩
      rcases hleast with rfl | hleast
      · exact hlt
      · exact hleast
    · rename_i hge
      cases h
      exact ⟨k, le_rfl, rfl, hle, Nat.le_of_not_lt hge, .inl rfl⟩

def FallsShort (n : Nat) : Prop := ∃ k ≥ 6, 1023 * 2 ^ k < n ∧ n ≤ 1024 * 2 ^ k

theorem init_spec (hpos : 1 ≤ n) (hmax : n ≤ 2 ^ 63) (h : init fuel n = some b) :
    b.maxElements = n ∧ b.blockCapacity = 0 ∧ b.Sound ∧ b.HasRoom ∧ 0 < b.nextBlockSize ∧
      (b.limit = n ↔ ¬ FallsShort n) := by
  obtain ⟨size, hsize, rfl⟩ := Option.map_eq_some_iff.mp h
  have hroom : (⟨n, 0, 0, size⟩ : Blocks).HasRoom := ⟨show 0 < 10 by decide, hpos⟩
  have hsound : size ≤ n → (⟨n, 0, 0, size⟩ : Blocks).Sound := fun hle =>
    ⟨show n < 2 ^ 64 by omega, Nat.zero_le _, fun _ => by simpa using hle⟩
  by_cases hsmall : n ≤ 128
  · rw [if_pos hsmall] at hsize
    cases hsize
    have hs := hsound le_rfl
    refine ⟨rfl, rfl, hs, hroom, hpos, iff_of_true ?_ ?_⟩
    · refine Nat.le_antisymm (limit_le hs) ?_
      have hle := capacity_le_limit (hs.grow hroom)
      rw [limit_grow hroom, capacity_grow hs hroom] at hle
      simpa using hle
    · rintro ⟨k, hk, hshort, -⟩
      have : 1 ≤ 2 ^ k := Nat.one_le_two_pow
      omega
  · rw [if_neg hsmall] at hsize
    obtain ⟨j, hj, rfl, hle, hdo, hleast⟩ :=
      firstBlockSize_spec (k := 6) hmax (by omega) (by omega) hsize
    have hs := hsound hle
    have hfits : 2 ^ j + 9 ≤ n := by
      rcases hleast with rfl | hleast
      · omega
      · have : 1 ≤ 2 ^ j := Nat.one_le_two_pow
        rw [pow_add] at hleast
        omega
    have hlimit := limit_eq_max_iff (r := 9) hs hmax rfl Nat.one_le_two_pow hfits
    refine ⟨rfl, rfl, hs, hroom, Nat.two_pow_pos j, hlimit.trans ?_⟩
    have hsum : n - 0 ≤ (2 ^ (9 + 1) - 1) * 2 ^ j ↔ n ≤ 1023 * 2 ^ j := by norm_num
    refine hsum.trans ⟨?_, fun hno => ?_⟩
    · rintro hle' ⟨k, hk, hshort, hlong⟩
      rcases Nat.lt_or_ge k j with hlt | hge
      · have hpow : 2 ^ (k + 1) ≤ 2 ^ j := Nat.pow_le_pow_right (by omega) hlt
        have hleast := hleast.resolve_left (by omega)
        rw [pow_succ] at hpow
        rw [pow_add] at hleast
        omega
      · have hpow : 2 ^ j ≤ 2 ^ k := Nat.pow_le_pow_right (by omega) hge
        omega
    · by_contra hshort
      rw [pow_add] at hdo
      exact hno ⟨j, hj, by omega, by omega⟩

end Blocks

namespace RecencyList

variable {κ ν : Type} [DecidableEq κ] {entries : RecencyList κ ν} {limit : Nat}

theorem run_snd (ops : List (LruCache.Op κ ν)) :
    (run limit ops entries).2 = ops.foldl (fun entries op => (step limit op entries).2) entries := by
  induction ops generalizing entries with
  | nil => rfl
  | cons op ops ih => exact ih

theorem nodup_run (ops : List (LruCache.Op κ ν)) (h : (entries.map Prod.fst).Nodup) :
    ((run limit ops entries).2.map Prod.fst).Nodup := by
  rw [run_snd]
  induction ops generalizing entries with
  | nil => exact h
  | cons op ops ih => exact ih (nodup_step h op)

theorem exists_run_length {n : Nat} (h : n ≤ limit) : ∃ ops : List (LruCache.Op Nat Nat),
    (run limit ops []).2.length = n ∧ ∀ x ∈ (run limit ops []).2, x.1 < n := by
  induction n with
  | zero => exact ⟨[], rfl, fun _ hx => (List.not_mem_nil hx).elim⟩
  | succ n ih =>
    obtain ⟨ops, hlength, hkeys⟩ := ih (by omega)
    have hstep : (run limit (ops ++ [.insert n 0]) []).2 = (n, 0) :: (run limit ops []).2 := by
      have herase : (run limit ops []).2.erase n = (run limit ops []).2 :=
        List.filter_eq_self.mpr fun x hx => decide_eq_true (hkeys x hx).ne
      rw [run_snd, List.foldl_append, ← run_snd ops, List.foldl_cons, List.foldl_nil, step, insert,
        herase, if_pos (by omega)]
    refine ⟨ops ++ [.insert n 0], by rw [hstep, List.length_cons, hlength], fun x hx => ?_⟩
    rw [hstep] at hx
    rcases List.mem_cons.mp hx with rfl | hx
    · exact Nat.lt_succ_self n
    · exact (hkeys x hx).trans (Nat.lt_succ_self n)

end RecencyList

namespace LruCache

section

variable {κ ν : Type} [DecidableEq κ] {c : LruCache κ ν} {fuel maxElements : Nat}

/-- After any run of operations, the insertion of a key that is not present keeps all other
entries unless there are `maxElements` of them. -/
def EvictsWhenFull [Inhabited κ] [Inhabited ν] (c : LruCache κ ν) (maxElements : Nat) : Prop :=
  ∀ ops answers c', c.run ops = some (answers, c') →
    ∀ key value, c'.lookupWithoutInsert key = none → c'.size ≠ maxElements →
      ∃ c'', c'.insert key value = some c'' ∧ ∀ k v, c'.lookupWithoutInsert k = some v →
        c''.lookupWithoutInsert k = some v

theorem represents_of_new (hpos : 1 ≤ maxElements) (hmax : maxElements ≤ 2 ^ 63)
    (hnew : new κ ν fuel maxElements = some c) :
    Represents c c.toBlocks.limit [] ∧ 0 < c.toBlocks.limit ∧ c.toBlocks.limit ≤ maxElements ∧
      (c.toBlocks.limit = maxElements ↔ ¬ Blocks.FallsShort maxElements) := by
  obtain ⟨b, hinit, hc⟩ := Option.bind_eq_some_iff.mp hnew
  cases hc
  obtain ⟨hmaxElements, hcapacity, hsound, hroom, hnext, hiff⟩ := Blocks.init_spec hpos hmax hinit
  exact ⟨represents_empty hsound hcapacity, Blocks.limit_pos hsound hroom hnext,
    hmaxElements ▸ Blocks.limit_le hsound, hiff⟩

theorem evictsWhenFull_of_limit [Inhabited κ] [Inhabited ν] {limit : Nat} (h : Represents c limit []) (hpos : 0 < limit) :
    EvictsWhenFull c limit := by
  intro ops answers c' hrun key value hkey hsize
  obtain ⟨c₁, hrun₁, h₁⟩ := h.run hpos ops
  rw [hrun] at hrun₁
  cases hrun₁
  obtain ⟨c'', hinsert, h''⟩ := h₁.insert hpos key value
  refine ⟨c'', hinsert, fun k v hk => ?_⟩
  have hnodup : ((RecencyList.run limit ops []).2.map Prod.fst).Nodup :=
    RecencyList.nodup_run ops List.nodup_nil
  rw [h₁.lookupWithoutInsert] at hk hkey
  have hlength : ((RecencyList.run limit ops []).2.erase key).length < limit := by
    have hle := List.length_filter_le (fun x => decide (x.1 ≠ key)) (RecencyList.run limit ops []).2
    have := h₁.length_le
    rw [h₁.size_eq] at hsize
    rw [RecencyList.erase]
    omega
  rw [h''.lookupWithoutInsert, RecencyList.lookup_insert hnodup, RecencyList.dropped,
    if_pos hlength, if_neg (Option.some_ne_none k).symm, hk, if_neg]
  rintro rfl
  rw [hkey] at hk
  cases hk

end

theorem limit_of_evictsWhenFull {c : LruCache Nat Nat} {limit maxElements : Nat}
    (h : Represents c limit []) (hpos : 0 < limit) (hfull : EvictsWhenFull c maxElements) :
    limit = maxElements := by
  by_contra hne
  obtain ⟨ops, hlength, hkeys⟩ := RecencyList.exists_run_length (Nat.le_refl limit)
  obtain ⟨c', hrun, h'⟩ := h.run hpos ops
  have hnodup : ((RecencyList.run limit ops []).2.map Prod.fst).Nodup :=
    RecencyList.nodup_run ops List.nodup_nil
  generalize (RecencyList.run limit ops []).2 = entries at hlength hkeys h' hnodup
  have hne_key : ∀ x ∈ entries, x.1 ≠ limit := fun x hx => (hkeys x hx).ne
  have herase : entries.erase limit = entries := erase_of_forall_ne hne_key
  have habsent : entries.lookup limit = none := by
    rw [RecencyList.lookup, find_absent hne_key]
    rfl
  obtain ⟨es, ⟨last, v⟩, rfl⟩ : ∃ es x, entries = es ++ [x] :=
    (List.eq_nil_or_concat' entries).resolve_left fun hnil => by
      rw [hnil] at hlength
      exact hpos.ne hlength
  obtain ⟨c'', hinsert, hkept⟩ := hfull ops _ c' hrun limit 0
    (by rw [h'.lookupWithoutInsert, habsent]) (by rwa [h'.size_eq, hlength])
  obtain ⟨c₁, hinsert₁, h''⟩ := h'.insert hpos limit 0
  rw [hinsert] at hinsert₁
  cases hinsert₁
  have hlast : RecencyList.lookup (es ++ [(last, v)]) last = some v := by
    rw [RecencyList.lookup, find_split, Option.map_some]
    intro x hx
    rw [List.append_nil] at hx
    rw [List.map_append, List.nodup_append] at hnodup
    exact hnodup.2.2 x.1 (List.mem_map_of_mem hx) last (by simp)
  have hlost := hkept last v (by rw [h'.lookupWithoutInsert, hlast])
  rw [h''.lookupWithoutInsert, RecencyList.lookup_insert hnodup, RecencyList.dropped, herase,
    if_neg hlength.not_lt, List.getLast?_concat, Option.map_some, if_pos rfl,
    if_neg (hkeys (last, v) (by simp)).ne] at hlost
  cases hlost

/-- Where the constructor returns, and a key that is not present evicts another entry only at the
maximum: the blocks fill it, as long as they double, up to 1023 of the first one. -/
theorem evictsWhenFull_iff {maxElements : Nat} (hpos : 1 ≤ maxElements)
    (hsize : maxElements < 2 ^ 64) :
    ((∃ fuel b, Blocks.init fuel maxElements = some b ∧ b.limit = maxElements) ↔
      maxElements ≤ 2 ^ 63 ∧ ¬ Blocks.FallsShort maxElements) ∧
    ((∀ (κ ν : Type) [DecidableEq κ] [Inhabited κ] [Inhabited ν],
      ∃ fuel c, new κ ν fuel maxElements = some c ∧ EvictsWhenFull c maxElements) ↔
      maxElements ≤ 2 ^ 63 ∧ ¬ Blocks.FallsShort maxElements) := by
  have hlarge : ∀ fuel b, Blocks.init fuel maxElements = some b → maxElements ≤ 2 ^ 63 := by
    intro fuel b hinit
    by_contra hlarge
    have hloop := firstBlockSize_eq_none (Nat.lt_of_not_le hlarge) fuel 6
    rw [Blocks.init, if_neg (by omega), show 64 = 2 ^ 6 % 2 ^ 64 from rfl, hloop] at hinit
    cases hinit
  have hinit : maxElements ≤ 2 ^ 63 → ∃ fuel b, Blocks.init fuel maxElements = some b := by
    intro hmax
    obtain ⟨c, -, hnew, -⟩ := @represents_new Nat Nat _ _ _ _ hpos hmax
    obtain ⟨b, hinit, -⟩ := Option.bind_eq_some_iff.mp hnew
    exact ⟨64, b, hinit⟩
  refine ⟨⟨?_, ?_⟩, ⟨?_, ?_⟩⟩
  · rintro ⟨fuel, b, hb, hlimit⟩
    have hmax := hlarge fuel b hb
    exact ⟨hmax, (Blocks.init_spec hpos hmax hb).2.2.2.2.2.mp hlimit⟩
  · rintro ⟨hmax, hfits⟩
    obtain ⟨fuel, b, hb⟩ := hinit hmax
    exact ⟨fuel, b, hb, (Blocks.init_spec hpos hmax hb).2.2.2.2.2.mpr hfits⟩
  · intro hall
    obtain ⟨fuel, c, hnew, hfull⟩ := hall Nat Nat
    obtain ⟨b, hb, -⟩ := Option.bind_eq_some_iff.mp hnew
    have hmax := hlarge fuel b hb
    obtain ⟨hrep, hlimitPos, -, hiff⟩ := represents_of_new hpos hmax hnew
    exact ⟨hmax, hiff.mp (limit_of_evictsWhenFull hrep hlimitPos hfull)⟩
  · rintro ⟨hmax, hfits⟩ κ ν _ _ _
    obtain ⟨fuel, b, hb⟩ := hinit hmax
    have hnew : new κ ν fuel maxElements = some ⟨b, ∅, none, none, none, []⟩ := by
      rw [new, hb]
      rfl
    obtain ⟨hrep, hlimitPos, -, hiff⟩ := represents_of_new hpos hmax hnew
    have hfull := evictsWhenFull_of_limit hrep hlimitPos
    rw [hiff.mpr hfits] at hfull
    exact ⟨fuel, _, hnew, hfull⟩

theorem evictsWhenFull_thousand : ∃ fuel c, new Nat Nat fuel 1000 = some c ∧
    EvictsWhenFull c 1000 := by
  refine (evictsWhenFull_iff (by decide) (by decide)).2.mpr ⟨by decide, ?_⟩ Nat Nat
  rintro ⟨k, hk, hshort, -⟩
  have : 1 ≤ 2 ^ k := Nat.one_le_two_pow
  omega

/-- Ten blocks of 64 up to 32768 elements are 64 short of the maximum. -/
theorem limit_lt_max : (∃ b, Blocks.init 64 65536 = some b ∧ b.limit = 65472) ∧
    ¬ ∀ (κ ν : Type) [DecidableEq κ] [Inhabited κ] [Inhabited ν],
      ∃ fuel c, new κ ν fuel 65536 = some c ∧ EvictsWhenFull c 65536 := by
  refine ⟨⟨⟨65536, 0, 0, 64⟩, by decide, by decide⟩, fun hall => ?_⟩
  obtain ⟨fuel, c, hnew, hfull⟩ := hall Nat Nat
  obtain ⟨hrep, hlimitPos, -, hiff⟩ := represents_of_new (by decide) (by decide) hnew
  exact hiff.mp (limit_of_evictsWhenFull hrep hlimitPos hfull) ⟨6, le_rfl, by decide, by decide⟩

end LruCache

end Mozkey.Storage
