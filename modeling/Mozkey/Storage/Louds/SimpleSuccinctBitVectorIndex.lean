import Mozkey.Lib.RankSelect
import Mozkey.Storage.Louds.BitStream

/-! The succinct bit vector of `storage/louds/simple_succinct_bit_vector_index.cc`.  A read outside
the data or the tables is `none`; a pointer into the index is a position in it. -/

namespace Mozkey.Storage

def popcount (word : Nat) : Nat := (lowBits 32 word).count true

def complement (word : Nat) : Nat := 0xffffffff - word

def count1Bits (data : Bytes) : Nat → Nat → Option Nat
  | 0, _ => some 0
  | length + 1, offset => do
    let word ← loadUint32 data offset
    let numBits ← count1Bits data length (offset + 4)
    some (popcount word + numBits)

def initIndexLoop (data : Bytes) (chunkSize : Nat) : Nat → Nat → Nat → Nat → Option (List Nat)
  | _, _, 0, numBits => some [numBits]
  | 0, _, _ + 1, _ => none
  | fuel + 1, offset, remaining + 1, numBits => do
    let added ← count1Bits data (min (chunkSize / 4) (remaining + 1)) offset
    let rest ← initIndexLoop data chunkSize fuel (offset + chunkSize)
      (remaining + 1 - chunkSize / 4) (numBits + added)
    some (numBits :: rest)

def initIndex (data : Bytes) (chunkSize : Nat) : Option (List Nat) := do
  let chunkLength := (data.length + chunkSize - 1) / chunkSize
  let index ← initIndexLoop data chunkSize (data.length / 4) 0 (data.length / 4) 0
  if chunkLength + 1 = index.length then some index else none

def lowerBound (table : List Nat) (first last target : Nat) : Nat :=
  first + (((table.drop first).take (last - first)).takeWhile (· < target)).length

def zeroBitIndex (index : List Nat) (chunkSize : Nat) : List Nat :=
  index.mapIdx fun k ones => chunkSize * 8 * k - ones

/-- `InitLowerBound0Cache` and `InitLowerBound1Cache`, by the view of the index. -/
def initLowerBoundCache (view : List Nat) (increment size : Nat) : List Nat :=
  0 :: (List.range size).map (fun i => lowerBound view 0 view.length (increment * (i + 1))) ++
    [view.length]

def cacheIncrement (numBits size : Nat) : Nat :=
  let increment := if size = 0 then numBits else numBits / size
  if increment = 0 then 1 else increment

structure SimpleSuccinctBitVectorIndex where
  data : Bytes := []
  chunkSize : Nat := 32
  index : List Nat := []
  lb0CacheIncrement : Nat := 1
  lb0Cache : List Nat := []
  lb1CacheIncrement : Nat := 1
  lb1Cache : List Nat := []
  deriving DecidableEq

namespace SimpleSuccinctBitVectorIndex

variable (s : SimpleSuccinctBitVectorIndex)

def getNum1Bits : Nat := s.index.getLastD 0

def getNum0Bits : Nat := 8 * s.data.length - s.index.getLastD 0

def init (chunkSize : Nat) (data : Bytes) (lb0CacheSize lb1CacheSize : Nat) :
    Option SimpleSuccinctBitVectorIndex := do
  guard (8 * data.length < 2 ^ 31)
  let index ← initIndex data chunkSize
  let s : SimpleSuccinctBitVectorIndex := { data := data, chunkSize := chunkSize, index := index }
  let lb0CacheIncrement := cacheIncrement s.getNum0Bits lb0CacheSize
  let lb1CacheIncrement := cacheIncrement s.getNum1Bits lb1CacheSize
  some
    { s with
      lb0CacheIncrement := lb0CacheIncrement
      lb0Cache := initLowerBoundCache (zeroBitIndex index chunkSize) lb0CacheIncrement lb0CacheSize
      lb1CacheIncrement := lb1CacheIncrement
      lb1Cache := initLowerBoundCache index lb1CacheIncrement lb1CacheSize }

def get (i : Nat) : Option Bool := s.data[i / 8]?.map fun b => b.toNat.testBit (i % 8)

def rank1 (n : Nat) : Option Nat := do
  let numChunks := n / (s.chunkSize * 8)
  let result ← s.index[numChunks]?
  let words ← count1Bits s.data ((n / 8 - numChunks * s.chunkSize) / 4) (numChunks * s.chunkSize)
  if n % 32 > 0 then
    let word ← loadUint32 s.data (4 * (n / 32))
    some (result + words + popcount (word <<< (32 - n % 32) % 2 ^ 32))
  else some (result + words)

def rank0 (n : Nat) : Option Nat := (s.rank1 n).map (n - ·)

/-- The linear search on words: the offset of the word with the `n`-th bit, and what is left of
`n` there. -/
def skipWords (data : Bytes) (flip : Nat → Nat) : Nat → Nat → Nat → Option (Nat × Nat)
  | 0, _, _ => none
  | fuel + 1, offset, n => do
    let word ← loadUint32 data offset
    let bitCount := popcount (flip word)
    if bitCount ≥ n then some (offset, n)
    else skipWords data flip fuel (offset + 4) (n - bitCount)

/-- The last loop: the index behind the `n`-th bit of the word. -/
def skipBits : Nat → Nat → Nat → Nat → Option Nat
  | _, _, 0, index => some index
  | 0, _, _ + 1, _ => none
  | fuel + 1, word, n + 1, index => skipBits fuel (word >>> 1) (n + 1 - word % 2) (index + 1)

/-- `Select0` and `Select1`, by the view of the index, its cache and the bits that count. -/
def select (view cache : List Nat) (increment : Nat) (flip : Nat → Nat) (n : Nat) :
    Option Nat := do
  let cacheIndex := min (n / increment) (cache.length - 2)
  let first ← cache[cacheIndex]?
  let last ← cache[cacheIndex + 1]?
  match lowerBound view first last n with
  | 0 => none
  | chunkIndex + 1 =>
    let before ← view[chunkIndex]?
    let offset := chunkIndex * s.chunkSize / 4 * 4
    let (offset, n) ← skipWords s.data flip s.data.length offset (n - before)
    let word ← loadUint32 s.data offset
    let index ← skipBits 32 (flip word) n (offset * 8)
    some (index - 1)

def select0 (n : Nat) : Option Nat :=
  s.select (zeroBitIndex s.index s.chunkSize) s.lb0Cache s.lb0CacheIncrement complement n

def select1 (n : Nat) : Option Nat := s.select s.index s.lb1Cache s.lb1CacheIncrement id n

end SimpleSuccinctBitVectorIndex

open Lib

section

variable {data : Bytes} {chunkSize : Nat}

theorem popcount_eq {word : Nat} {bits : List Bool} (h : lowBits 32 word = bits.take 32) :
    popcount word = rank true bits 32 := by
  rw [popcount, h, rank]

theorem popcount_shiftLeft {word r : Nat} (hr : r < 32) :
    popcount (word <<< (32 - r) % 2 ^ 32) = ((lowBits 32 word).take r).count true := by
  have hbit : ∀ i, i < 32 → (word <<< (32 - r) % 2 ^ 32).testBit i =
      (decide (32 - r ≤ i) && word.testBit (i - (32 - r))) := by
    intro i hi
    rw [Nat.testBit_mod_two_pow, Nat.testBit_shiftLeft, decide_eq_true hi, Bool.true_and]
  have hlow : lowBits 32 (word <<< (32 - r) % 2 ^ 32) =
      List.replicate (32 - r) false ++ lowBits r word := by
    have hsplit := lowBits_add (32 - r) r (word <<< (32 - r) % 2 ^ 32)
    rw [Nat.sub_add_cancel hr.le] at hsplit
    rw [hsplit]
    congr 1
    · refine List.eq_replicate_iff.mpr ⟨by simp, fun x hx => ?_⟩
      obtain ⟨i, hi, rfl⟩ := List.mem_map.mp hx
      rw [List.mem_range] at hi
      rw [hbit i (by omega), decide_eq_false (by omega), Bool.false_and]
    · refine List.map_congr_left fun i hi => ?_
      rw [List.mem_range] at hi
      rw [Nat.testBit_shiftRight, hbit _ (by omega), decide_eq_true (by omega),
        Nat.add_sub_cancel_left, Bool.true_and]
  have htake : (lowBits 32 word).take r = lowBits r word := by
    rw [lowBits, lowBits, ← List.map_take, List.take_range, Nat.min_eq_left hr.le]
  rw [popcount, hlow, htake, List.count_append, List.count_replicate]
  simp

theorem count1Bits_eq {length offset : Nat} (h : offset + 4 * length ≤ data.length) :
    count1Bits data length offset = some (rank true ((bitsOf data).drop (8 * offset)) (32 * length)) := by
  induction length generalizing offset with
  | zero => simp [count1Bits]
  | succ length ih =>
    obtain ⟨word, hword, -, hbits⟩ := @loadUint32_eq data offset (by omega)
    have hadd := rank_add true ((bitsOf data).drop (8 * offset)) 32 (32 * length)
    rw [List.drop_drop, show 8 * offset + 32 = 8 * (offset + 4) by omega] at hadd
    rw [count1Bits, hword, ih (by omega), show 32 * (length + 1) = 32 + 32 * length by omega, hadd,
      ← popcount_eq hbits]
    rfl

variable (data chunkSize) in
/-- The table of the ranks at the ends of the chunks. -/
def chunkRanks (n : Nat) : List Nat :=
  (List.range n).map fun c => rank true (bitsOf data) (8 * chunkSize * c)

theorem initIndexLoop_eq (hchunk : 4 ∣ chunkSize) (hpos : 0 < chunkSize) (hdata : 4 ∣ data.length)
    {fuel c remaining : Nat} (hfuel : remaining ≤ fuel)
    (hremaining : 4 * remaining = data.length - chunkSize * c) :
    initIndexLoop data chunkSize fuel (chunkSize * c) remaining
        (rank true (bitsOf data) (8 * chunkSize * c)) =
      some ((List.range ((data.length - chunkSize * c + chunkSize - 1) / chunkSize + 1)).map fun k =>
        rank true (bitsOf data) (8 * chunkSize * (c + k))) := by
  induction fuel generalizing c remaining with
  | zero =>
    obtain rfl : remaining = 0 := by omega
    rw [initIndexLoop, ← hremaining, Nat.mul_zero, Nat.zero_add,
      Nat.div_eq_of_lt (by omega : chunkSize - 1 < chunkSize)]
    rfl
  | succ fuel ih =>
    cases remaining with
    | zero =>
      rw [initIndexLoop, ← hremaining, Nat.mul_zero, Nat.zero_add,
        Nat.div_eq_of_lt (by omega : chunkSize - 1 < chunkSize)]
      rfl
    | succ remaining =>
      obtain ⟨q, rfl⟩ := hchunk
      have hlength := length_bitsOf data
      have hq : 4 * q / 4 = q := by omega
      -- the words of this chunk hold all of its bits
      have hadded : rank true (bitsOf data) (8 * (4 * q) * c) +
          rank true ((bitsOf data).drop (8 * (4 * q * c))) (32 * min q (remaining + 1)) =
          rank true (bitsOf data) (8 * (4 * q) * (c + 1)) := by
        rw [Nat.mul_succ, rank_add, Nat.mul_assoc 8]
        congr 1
        rcases Nat.le_total q (remaining + 1) with hle | hle
        · rw [Nat.min_eq_left hle, show 8 * (4 * q) = 32 * q by omega]
        · rw [Nat.min_eq_right hle, rank_of_length_le (by rw [List.length_drop]; omega),
            rank_of_length_le (by rw [List.length_drop]; omega)]
      have hrest := @ih (c + 1) (remaining + 1 - q) (by omega)
        (by rw [Nat.mul_succ]; omega)
      rw [Nat.mul_succ] at hrest
      rw [initIndexLoop, hq, count1Bits_eq (by omega)]
      simp only [Option.bind_eq_bind, Option.bind_some, hadded, hrest, Option.some_inj]
      have hceil : (data.length - 4 * q * c + 4 * q - 1) / (4 * q) =
          (data.length - (4 * q * c + 4 * q) + 4 * q - 1) / (4 * q) + 1 := by
        rw [← Nat.add_div_right _ hpos]
        rcases Nat.le_total q (remaining + 1) with hle | hle
        · congr 1
          omega
        · rw [show data.length - (4 * q * c + 4 * q) = 0 by omega]
          rw [Nat.div_eq_of_lt_le (k := 1) (by omega) (by omega),
            Nat.div_eq_of_lt_le (k := 1) (by omega) (by omega)]
      rw [hceil, List.range_succ_eq_map (n := _ + 1), List.map_cons, List.map_map]
      congr 1
      refine List.map_congr_left fun k _ => ?_
      rw [Function.comp_apply, Nat.succ_eq_add_one, show c + 1 + k = c + (k + 1) by omega]

theorem initIndex_eq (hchunk : 4 ∣ chunkSize) (hpos : 0 < chunkSize) (hdata : 4 ∣ data.length) :
    initIndex data chunkSize =
      some (chunkRanks data chunkSize ((data.length + chunkSize - 1) / chunkSize + 1)) := by
  have hloop := initIndexLoop_eq (c := 0) hchunk hpos hdata (le_refl (data.length / 4)) (by omega)
  simp only [Nat.mul_zero, Nat.zero_add, Nat.sub_zero, rank_zero] at hloop
  simp [initIndex, hloop, chunkRanks]

def flipFor (b : Bool) : Nat → Nat := if b then id else complement

theorem lowBits_flipFor (b : Bool) {word : Nat} (h : word < 2 ^ 32) :
    lowBits 32 (flipFor b word) = (lowBits 32 word).map (· == b) := by
  rw [lowBits, lowBits, List.map_map]
  refine List.map_congr_left fun i hi => ?_
  cases b with
  | true => simp [flipFor]
  | false =>
    have := Nat.testBit_two_pow_sub_succ (n := 32) h i
    rw [decide_eq_true (List.mem_range.mp hi), Bool.true_and] at this
    rw [flipFor, if_neg (by decide), complement,
      show 0xffffffff - word = 2 ^ 32 - (word + 1) by omega, this]
    simp

theorem skipBits_eq {fuel word n i index : Nat} (h : SelectsAt true (lowBits fuel word) n i) :
    SimpleSuccinctBitVectorIndex.skipBits fuel word n index = some (index + i + 1) := by
  induction fuel generalizing word n i index with
  | zero =>
    have := h.lt_length
    simp at this
  | succ fuel ih =>
    obtain ⟨n, rfl⟩ : ∃ k, n = k + 1 := ⟨n - 1, by have := h.pos; omega⟩
    rw [Nat.add_comm fuel, lowBits_add] at h
    have hone : lowBits 1 word = [word.testBit 0] := rfl
    have hrank : rank true (lowBits 1 word ++ lowBits fuel (word >>> 1)) 1 = word % 2 := by
      rw [rank_append_left _ _ (by simp), rank, hone, List.take_of_length_le (by simp),
        List.count_singleton, Nat.testBit_zero]
      rcases Nat.mod_two_eq_zero_or_one word with hmod | hmod <;> simp [hmod]
    rw [SimpleSuccinctBitVectorIndex.skipBits]
    rcases Nat.eq_zero_or_pos i with rfl | hi
    · have hx := h.getElem
      have hn := h.rank
      rw [hone, List.singleton_append, List.getElem?_cons_zero, Nat.testBit_zero, Option.some_inj,
        decide_eq_true_iff] at hx
      rw [rank_zero] at hn
      rw [hx, show n + 1 - 1 = 0 by omega]
      cases fuel <;> rfl
    · have hdrop := h.drop (m := 1) hi
      rw [hrank, List.drop_left' (by simp)] at hdrop
      rw [ih hdrop, Option.some_inj]
      omega

theorem skipWords_eq {b : Bool} {n i : Nat} (hdata : 4 ∣ data.length)
    (h : SelectsAt b (bitsOf data) n i) {fuel offset : Nat} (hoffset : 4 ∣ offset)
    (hle : 8 * offset ≤ i) (hfuel : data.length ≤ offset + fuel) :
    ∃ offset', SimpleSuccinctBitVectorIndex.skipWords data (flipFor b) fuel offset
        (n - rank b (bitsOf data) (8 * offset)) =
          some (offset', n - rank b (bitsOf data) (8 * offset')) ∧
      8 * offset' ≤ i ∧ i < 8 * offset' + 32 ∧ offset' + 4 ≤ data.length := by
  have hlt := h.lt_length
  rw [length_bitsOf] at hlt
  induction fuel generalizing offset with
  | zero => omega
  | succ fuel ih =>
    obtain ⟨word, hword, hword32, hbits⟩ := @loadUint32_eq data offset
      (by omega)
    have hcount : popcount (flipFor b word) =
        rank b ((bitsOf data).drop (8 * offset)) 32 := by
      rw [popcount, lowBits_flipFor b hword32, hbits, List.map_take]
      exact rank_map_beq b _ 32
    have hadd := rank_add b (bitsOf data) (8 * offset) 32
    have hbefore := h.rank_lt_iff.mpr hle
    have hinside := h.rank_lt_iff (n := 8 * offset + 32)
    rw [SimpleSuccinctBitVectorIndex.skipWords, hword]
    simp only [Option.bind_eq_bind, Option.bind_some, hcount]
    split
    · exact ⟨offset, rfl, hle, by omega, by omega⟩
    · have hnext : n - rank b (bitsOf data) (8 * offset) -
          rank b ((bitsOf data).drop (8 * offset)) 32 =
          n - rank b (bitsOf data) (8 * (offset + 4)) := by
        rw [show 8 * (offset + 4) = 8 * offset + 32 by omega]
        omega
      rw [hnext]
      exact ih (by omega) (by omega) (by omega)

variable {view cache : List Nat} {increment n : Nat}

theorem lowerBound_pred {first last chunk : Nat}
    (hfirst : first = 0 ∨ ∃ v, view[first - 1]? = some v ∧ v < n)
    (h : lowerBound view first last n = chunk + 1) : ∃ v, view[chunk]? = some v ∧ v < n := by
  rw [lowerBound] at h
  generalize htw : ((view.drop first).take (last - first)).takeWhile (· < n) = below at h
  rcases Nat.eq_zero_or_pos below.length with hzero | hpos
  · obtain rfl : first = chunk + 1 := by omega
    exact hfirst.resolve_left (by omega)
  · have hlt : chunk - first < below.length := by omega
    obtain ⟨rest, hrest⟩ := List.takeWhile_prefix (fun v => decide (v < n))
      (l := (view.drop first).take (last - first))
    rw [htw] at hrest
    have hget : view[chunk]? = some below[chunk - first] := by
      have := congrArg (fun xs => xs[chunk - first]?) hrest
      simp only [List.getElem?_append_left hlt, List.getElem?_eq_getElem hlt, List.getElem?_take,
        List.getElem?_drop] at this
      split at this
      · rw [this, show first + (chunk - first) = chunk by omega]
      · cases this
    refine ⟨_, hget, ?_⟩
    have := List.all_eq_true.mp (List.all_takeWhile (p := fun v => decide (v < n))
      (l := (view.drop first).take (last - first)))
    rw [htw] at this
    simpa using this _ (List.getElem_mem hlt)

theorem lowerBound_pos {first last : Nat} (hzero : view[0]? = some 0) (hn : 0 < n)
    (h : 0 < first ∨ 0 < last) : 0 < lowerBound view first last n := by
  rw [lowerBound]
  rcases Nat.eq_zero_or_pos first with rfl | hfirst
  · obtain ⟨rest, hrest⟩ : ∃ rest, view = 0 :: rest := by
      cases view with
      | nil => simp at hzero
      | cons v rest => exact ⟨rest, by simpa using hzero⟩
    obtain ⟨last, rfl⟩ : ∃ k, last = k + 1 := ⟨last - 1, by omega⟩
    rw [hrest, Nat.sub_zero, List.drop_zero, List.take_succ_cons, List.takeWhile_cons]
    simp [hn]
  · omega

theorem lowerBound_cache {size : Nat} (hincrement : 0 < increment) (hzero : view[0]? = some 0)
    (hn : 0 < n) :
    let cache := initLowerBoundCache view increment size
    let i := min (n / increment) (cache.length - 2)
    ∃ first last chunk v, cache[i]? = some first ∧ cache[i + 1]? = some last ∧
      lowerBound view first last n = chunk + 1 ∧ view[chunk]? = some v ∧ v < n := by
  intro cache i
  have hview := (List.getElem?_eq_some_iff.mp hzero).1
  have hlength : cache.length = size + 2 := by simp [cache, initLowerBoundCache]
  have hinner : ∀ k, k < size →
      cache[k + 1]? = some (lowerBound view 0 view.length (increment * (k + 1))) := by
    intro k hk
    rw [show cache = 0 :: ((List.range size).map (fun i =>
      lowerBound view 0 view.length (increment * (i + 1))) ++ [view.length]) from rfl,
      List.getElem?_cons_succ, List.getElem?_append_left (by simpa using hk)]
    simp [hk]
  have hlast : cache[size + 1]? = some view.length := by
    rw [show cache = 0 :: ((List.range size).map (fun i =>
      lowerBound view 0 view.length (increment * (i + 1))) ++ [view.length]) from rfl,
      List.getElem?_cons_succ, List.getElem?_append_right (by simp)]
    simp
  have hpos : ∀ k, 0 < lowerBound view 0 view.length (increment * (k + 1)) := fun k =>
    lowerBound_pos hzero (Nat.mul_pos hincrement (Nat.succ_pos k)) (Or.inr hview)
  have hi : i ≤ size := by
    have : i ≤ cache.length - 2 := Nat.min_le_right _ _
    omega
  obtain ⟨last, hnext, hlastpos⟩ : ∃ last, cache[i + 1]? = some last ∧ 0 < last := by
    rcases Nat.lt_or_eq_of_le hi with hlt | heq
    · exact ⟨_, hinner i hlt, hpos i⟩
    · exact ⟨_, heq ▸ hlast, hview⟩
  obtain ⟨first, hfirst, hbefore⟩ : ∃ first, cache[i]? = some first ∧
      (first = 0 ∨ ∃ v, view[first - 1]? = some v ∧ v < n) := by
    rcases Nat.eq_zero_or_pos i with hzero | hpos'
    · exact ⟨0, by rw [hzero]; rfl, Or.inl rfl⟩
    · obtain ⟨k, hk⟩ : ∃ k, i = k + 1 := ⟨i - 1, by omega⟩
      rw [hk]
      refine ⟨_, hinner k (by omega), Or.inr ?_⟩
      obtain ⟨v, hv, hlt⟩ := @lowerBound_pred view (increment * (k + 1)) 0
        view.length (lowerBound view 0 view.length (increment * (k + 1)) - 1) (Or.inl rfl)
        (by have := hpos k; omega)
      refine ⟨v, hv, lt_of_lt_of_le hlt ?_⟩
      rw [← hk, Nat.mul_comm]
      exact le_trans (Nat.mul_le_mul_right _ (Nat.min_le_left _ _)) (Nat.div_mul_le_self _ _)
  have hne := @lowerBound_pos _ _ first _ hzero hn (Or.inr hlastpos)
  obtain ⟨v, hv, hlt⟩ := @lowerBound_pred _ _ _ last
    (lowerBound view first last n - 1) hbefore (by omega)
  exact ⟨first, last, _, v, hfirst, hnext, by omega, hv, hlt⟩

end

namespace SimpleSuccinctBitVectorIndex

structure Indexed (s : SimpleSuccinctBitVectorIndex) : Prop where
  chunk_dvd : 4 ∣ s.chunkSize
  chunk_pos : 0 < s.chunkSize
  data_dvd : 4 ∣ s.data.length
  index : s.index = chunkRanks s.data s.chunkSize
    ((s.data.length + s.chunkSize - 1) / s.chunkSize + 1)
  increment0 : 0 < s.lb0CacheIncrement
  increment1 : 0 < s.lb1CacheIncrement
  cache0 : ∃ size, s.lb0Cache =
    initLowerBoundCache (zeroBitIndex s.index s.chunkSize) s.lb0CacheIncrement size
  cache1 : ∃ size, s.lb1Cache = initLowerBoundCache s.index s.lb1CacheIncrement size

theorem cacheIncrement_pos (numBits size : Nat) : 0 < cacheIncrement numBits size := by
  unfold cacheIncrement
  dsimp only
  generalize (if size = 0 then numBits else numBits / size) = increment
  split <;> omega

theorem guard_eq_some {p : Prop} [Decidable p] (h : p) : (guard p : Option Unit) = some () := if_pos h

theorem length_lt_of_init {data : Bytes} {chunkSize lb0CacheSize lb1CacheSize : Nat}
    {s : SimpleSuccinctBitVectorIndex}
    (h : init chunkSize data lb0CacheSize lb1CacheSize = some s) : 8 * data.length < 2 ^ 31 := by
  by_contra hle
  rw [init, guard, if_neg hle] at h
  cases h

theorem init_eq {data : Bytes} {chunkSize : Nat} (hchunk : 4 ∣ chunkSize) (hpos : 0 < chunkSize)
    (hdata : 4 ∣ data.length) (hlength : 8 * data.length < 2 ^ 31) (lb0CacheSize lb1CacheSize : Nat) :
    ∃ s, init chunkSize data lb0CacheSize lb1CacheSize = some s ∧ s.Indexed ∧ s.data = data ∧
      s.chunkSize = chunkSize := by
  refine ⟨_, by rw [init, guard_eq_some hlength, initIndex_eq hchunk hpos hdata]; rfl, ?_, rfl, rfl⟩
  exact
    { chunk_dvd := hchunk
      chunk_pos := hpos
      data_dvd := hdata
      index := rfl
      increment0 := cacheIncrement_pos _ _
      increment1 := cacheIncrement_pos _ _
      cache0 := ⟨_, rfl⟩
      cache1 := ⟨_, rfl⟩ }

variable {s : SimpleSuccinctBitVectorIndex} (hs : s.Indexed) {b : Bool} {n i : Nat}

theorem get_eq (s : SimpleSuccinctBitVectorIndex) (i : Nat) : s.get i = (bitsOf s.data)[i]? := by
  rw [get]
  have hdrop := drop_bitsOf s.data (i / 8)
  have hget : (bitsOf s.data)[i]? = ((bitsOf s.data).drop (8 * (i / 8)))[i % 8]? := by
    rw [List.getElem?_drop, Nat.div_add_mod]
  rw [hget, hdrop]
  cases h : s.data.drop (i / 8) with
  | nil =>
    rw [List.drop_eq_nil_iff] at h
    rw [List.getElem?_eq_none h]
    rfl
  | cons byte rest =>
    have hbyte : s.data[i / 8]? = some byte := by
      have := congrArg List.head? h
      rwa [List.head?_drop] at this
    rw [hbyte, bitsOf_cons, List.getElem?_append_left (by
      rw [length_lowBits]
      exact Nat.mod_lt _ (by decide)), getElem_lowBits (Nat.mod_lt _ (by decide))]
    rfl

include hs

theorem index_getElem {c : Nat} (h : s.chunkSize * c < s.data.length + s.chunkSize) :
    s.index[c]? = some (rank true (bitsOf s.data) (8 * s.chunkSize * c)) := by
  have hpos := hs.chunk_pos
  have hc : c < (s.data.length + s.chunkSize - 1) / s.chunkSize + 1 := by
    rw [Nat.lt_succ_iff, Nat.le_div_iff_mul_le hpos, Nat.mul_comm]
    omega
  rw [hs.index, chunkRanks, List.getElem?_map, List.getElem?_range hc]
  rfl

theorem rank1_eq (h : n ≤ 8 * s.data.length) : s.rank1 n = some (rank true (bitsOf s.data) n) := by
  obtain ⟨q, hq⟩ := hs.chunk_dvd
  have hpos := hs.chunk_pos
  set c := n / (s.chunkSize * 8) with hc
  have hle : s.chunkSize * c * 8 ≤ n := by
    have := Nat.div_mul_le_self n (s.chunkSize * 8)
    rw [← hc, Nat.mul_comm, Nat.mul_right_comm] at this
    exact this
  have hqc : s.chunkSize * c = 4 * (q * c) := by rw [hq, Nat.mul_assoc]
  have hwords := @count1Bits_eq s.data ((n / 8 - c * s.chunkSize) / 4)
    (c * s.chunkSize) (by rw [Nat.mul_comm c]; omega)
  have hindex := index_getElem hs (c := c) (by omega)
  have hsum : rank true (bitsOf s.data) (8 * s.chunkSize * c) +
      rank true ((bitsOf s.data).drop (8 * (c * s.chunkSize)))
        (32 * ((n / 8 - c * s.chunkSize) / 4)) = rank true (bitsOf s.data) (32 * (n / 32)) := by
    rw [Nat.mul_assoc 8, Nat.mul_comm c, ← rank_add]
    congr 1
    omega
  rw [rank1, ← hc, hindex, hwords]
  simp only [Option.bind_eq_bind, Option.bind_some, hsum]
  split
  · obtain ⟨word, hword, hword32, hbits⟩ := @loadUint32_eq s.data (4 * (n / 32))
      (by obtain ⟨d, hd⟩ := hs.data_dvd; omega)
    rw [hword, Option.bind_some, Option.some_inj]
    -- the shift leaves the lowest bits of the word
    have hpop : popcount (word <<< (32 - n % 32) % 2 ^ 32) =
        rank true ((bitsOf s.data).drop (32 * (n / 32))) (n % 32) := by
      rw [popcount_shiftLeft (Nat.mod_lt _ (by decide)), hbits, rank, List.take_take,
        show 8 * (4 * (n / 32)) = 32 * (n / 32) by omega, Nat.min_eq_left (by omega)]
    rw [hpop, ← rank_add, Nat.div_add_mod]
  · congr 2
    omega

/-- What an entry of a view means for the search of the `n`-th bit `b`: it counts the bits up to its
chunk, and the chunk does not begin behind the bit. -/
structure Counts (s : SimpleSuccinctBitVectorIndex) (b : Bool) (view : List Nat) : Prop where
  zero : view[0]? = some 0
  entry : ∀ {n i c v}, SelectsAt b (bitsOf s.data) n i → view[c]? = some v → v < n →
    v = rank b (bitsOf s.data) (8 * s.chunkSize * c) ∧ 8 * s.chunkSize * c ≤ i

theorem index_entry {c v : Nat} (h : s.index[c]? = some v) :
    v = rank true (bitsOf s.data) (8 * s.chunkSize * c) := by
  rw [hs.index, chunkRanks, List.getElem?_map] at h
  obtain ⟨x, hx, rfl⟩ := Option.map_eq_some_iff.mp h
  obtain ⟨hlt, rfl⟩ := List.getElem?_eq_some_iff.mp hx
  rw [List.getElem_range]

theorem index_zero : s.index[0]? = some 0 := by
  have := hs.chunk_pos
  rw [index_getElem hs (by omega), Nat.mul_zero, rank_zero]

theorem counts_index : Counts s true s.index where
  zero := index_zero hs
  entry := by
    intro n i c v hn hv hlt
    have hv := index_entry hs hv
    exact ⟨hv, hn.rank_lt_iff.mp (hv ▸ hlt)⟩

theorem counts_zeroBitIndex : Counts s false (zeroBitIndex s.index s.chunkSize) where
  zero := by
    rw [zeroBitIndex, List.getElem?_mapIdx, index_zero hs]
    rfl
  entry := by
    intro n i c v hn hv hlt
    rw [zeroBitIndex, List.getElem?_mapIdx] at hv
    obtain ⟨ones, hones, rfl⟩ := Option.map_eq_some_iff.mp hv
    have hones := index_entry hs hones
    rw [show s.chunkSize * 8 * c = 8 * s.chunkSize * c by rw [Nat.mul_comm s.chunkSize]] at hlt ⊢
    rcases Nat.le_total (8 * s.chunkSize * c) (bitsOf s.data).length with hle | hge
    · have := rank_true_add_rank_false hle
      have hrank : 8 * s.chunkSize * c - ones =
          rank false (bitsOf s.data) (8 * s.chunkSize * c) := by omega
      exact ⟨hrank, hn.rank_lt_iff.mp (hrank ▸ hlt)⟩
    · -- the last chunk may not be full, but then all zeros are before its end
      rw [rank_of_length_le hge] at hones
      have := count_true_add_count_false (bitsOf s.data)
      have := rank_mono false (bitsOf s.data) (show i + 1 ≤ (bitsOf s.data).length from hn.lt_length)
      rw [hn.rank_succ, rank_length] at this
      omega

theorem select_eq {view : List Nat} {increment size : Nat} (hview : Counts s b view)
    (hincrement : 0 < increment) (h : SelectsAt b (bitsOf s.data) n i) :
    s.select view (initLowerBoundCache view increment size) increment (flipFor b) n = some i := by
  obtain ⟨first, last, chunk, v, hfirst, hlast, hchunk, hv, hlt⟩ :=
    @lowerBound_cache _ _ _ size hincrement hview.zero h.pos
  obtain ⟨rfl, hle⟩ := hview.entry h hv hlt
  obtain ⟨q, hq⟩ := hs.chunk_dvd
  have hqc : chunk * s.chunkSize = 4 * (q * chunk) := by rw [hq, Nat.mul_comm, Nat.mul_assoc]
  have hoffset : 8 * s.chunkSize * chunk = 8 * (chunk * s.chunkSize / 4 * 4) := by
    rw [Nat.mul_assoc, Nat.mul_comm s.chunkSize]
    omega
  rw [hoffset] at hle hv
  obtain ⟨offset, hwords, hbegin, hend, hdata⟩ := skipWords_eq hs.data_dvd h
    (by omega) hle (Nat.le_add_left s.data.length _)
  obtain ⟨word, hword, hword32, hbits⟩ := loadUint32_eq hdata
  have hin : SelectsAt true (lowBits 32 (flipFor b word)) (n - rank b (bitsOf s.data) (8 * offset))
      (i - 8 * offset) := by
    rw [lowBits_flipFor b hword32, hbits]
    refine selectsAt_map_beq ⟨?_, ?_⟩
    · rw [List.getElem?_take, if_pos (by omega), (h.drop hbegin).getElem]
    · rw [rank, List.take_take, Nat.min_eq_left (by omega)]
      exact (h.drop hbegin).rank
  rw [select]
  simp only [Option.bind_eq_bind, hfirst, hlast, Option.bind_some, hchunk, hv, hwords, hword,
    skipBits_eq hin, Option.some_inj]
  omega

theorem select0_eq (h : SelectsAt false (bitsOf s.data) n i) : s.select0 n = some i := by
  obtain ⟨size, hcache⟩ := hs.cache0
  rw [select0, hcache]
  exact select_eq hs (counts_zeroBitIndex hs) hs.increment0 h

theorem select1_eq (h : SelectsAt true (bitsOf s.data) n i) : s.select1 n = some i := by
  obtain ⟨size, hcache⟩ := hs.cache1
  rw [select1, hcache]
  exact select_eq hs (counts_index hs) hs.increment1 h

theorem getNum1Bits_eq : s.getNum1Bits = (bitsOf s.data).count true := by
  have hpos := hs.chunk_pos
  rw [getNum1Bits, hs.index, chunkRanks, List.range_succ, List.map_append, List.map_singleton,
    List.getLastD_concat, rank_of_length_le]
  rw [length_bitsOf, Nat.mul_assoc]
  have := Nat.lt_div_mul_add hpos (a := s.data.length + s.chunkSize - 1)
  rw [Nat.mul_comm] at this
  omega

theorem getNum0Bits_eq : s.getNum0Bits = (bitsOf s.data).count false := by
  have := count_true_add_count_false (bitsOf s.data)
  have h1 := getNum1Bits_eq hs
  rw [length_bitsOf] at this
  rw [getNum1Bits] at h1
  rw [getNum0Bits]
  omega

end SimpleSuccinctBitVectorIndex

namespace SimpleSuccinctBitVectorIndex

/-- The answers of the naive definitions on the bits of the data. -/
structure Answers (s : SimpleSuccinctBitVectorIndex) (data : Bytes) : Prop where
  num1Bits : s.getNum1Bits = (bitsOf data).count true
  num0Bits : s.getNum0Bits = (bitsOf data).count false
  rank1 : ∀ n ≤ 8 * data.length, s.rank1 n = some (rank true (bitsOf data) n)
  select1 : ∀ n, 1 ≤ n → n ≤ s.getNum1Bits →
    ∃ i, s.select1 n = some i ∧ SelectsAt true (bitsOf data) n i
  select0 : ∀ n, 1 ≤ n → n ≤ s.getNum0Bits →
    ∃ i, s.select0 n = some i ∧ SelectsAt false (bitsOf data) n i

theorem Indexed.answers {s : SimpleSuccinctBitVectorIndex} (hs : s.Indexed) : s.Answers s.data where
  num1Bits := getNum1Bits_eq hs
  num0Bits := getNum0Bits_eq hs
  rank1 _ hn := rank1_eq hs hn
  select1 n hpos hn := by
    rw [getNum1Bits_eq hs] at hn
    obtain ⟨i, hi⟩ := exists_selectsAt hpos hn
    exact ⟨i, select1_eq hs hi, hi⟩
  select0 n hpos hn := by
    rw [getNum0Bits_eq hs] at hn
    obtain ⟨i, hi⟩ := exists_selectsAt hpos hn
    exact ⟨i, select0_eq hs hi, hi⟩

theorem Answers.agree {s s' : SimpleSuccinctBitVectorIndex} {data : Bytes} (h : s.Answers data)
    (h' : s'.Answers data) :
    (∀ n ≤ 8 * data.length, s.rank1 n = s'.rank1 n) ∧
      (∀ n, 1 ≤ n → n ≤ s.getNum1Bits → s.select1 n = s'.select1 n) ∧
      ∀ n, 1 ≤ n → n ≤ s.getNum0Bits → s.select0 n = s'.select0 n := by
  refine ⟨fun n hn => by rw [h.rank1 n hn, h'.rank1 n hn], fun n hpos hn => ?_, fun n hpos hn => ?_⟩
  · obtain ⟨i, hi, hat⟩ := h.select1 n hpos hn
    obtain ⟨j, hj, hat'⟩ := h'.select1 n hpos (by rwa [h'.num1Bits, ← h.num1Bits])
    rw [hi, hj, hat.unique hat']
  · obtain ⟨i, hi, hat⟩ := h.select0 n hpos hn
    obtain ⟨j, hj, hat'⟩ := h'.select0 n hpos (by rwa [h'.num0Bits, ← h.num0Bits])
    rw [hi, hj, hat.unique hat']

/-- Whatever the size of the chunks and the caches, the index answers as the naive definitions do,
if the bits of whole chunks can be counted by an `int`. -/
theorem init_answers {data : Bytes} {chunkSize k : Nat} (hdata : 4 ∣ data.length)
    (hchunk : chunkSize = 2 ^ k) (hfour : 4 ≤ chunkSize)
    (hbits : 8 * chunkSize * max 1 ((data.length + chunkSize - 1) / chunkSize) < 2 ^ 31)
    (lb0CacheSize lb1CacheSize : Nat) :
    ∃ s, init chunkSize data lb0CacheSize lb1CacheSize = some s ∧ s.Answers data ∧
      ∀ s' : SimpleSuccinctBitVectorIndex, s'.Answers data → (∀ n ≤ 8 * data.length, s.rank1 n = s'.rank1 n) ∧
        (∀ n, 1 ≤ n → n ≤ s.getNum1Bits → s.select1 n = s'.select1 n) ∧
        ∀ n, 1 ≤ n → n ≤ s.getNum0Bits → s.select0 n = s'.select0 n := by
  have hdvd : 4 ∣ chunkSize := by
    have hpow : 2 ^ 2 ≤ 2 ^ k := hchunk ▸ hfour
    rw [hchunk]
    exact pow_dvd_pow 2 ((Nat.pow_le_pow_iff_right (by decide : 1 < 2)).mp hpow)
  have hlength : 8 * data.length < 2 ^ 31 := by
    have hceil : data.length ≤ chunkSize * ((data.length + chunkSize - 1) / chunkSize) := by
      have := Nat.lt_mul_div_succ (data.length + chunkSize - 1) (show 0 < chunkSize by omega)
      rw [Nat.mul_add] at this
      omega
    have hmax := Nat.mul_le_mul_left (8 * chunkSize)
      (le_max_right 1 ((data.length + chunkSize - 1) / chunkSize))
    rw [Nat.mul_assoc 8] at hmax
    omega
  obtain ⟨s, hinit, hs, hsData, -⟩ := init_eq hdvd (by omega) hdata hlength lb0CacheSize lb1CacheSize
  have hanswers := hs.answers
  rw [hsData] at hanswers
  exact ⟨s, hinit, hanswers, fun s' h' => hanswers.agree h'⟩

/-- Two words in chunks of one word, with a small cache and a large one. -/
theorem init_answers_two_words :
    ∃ s, init 4 [0x05, 0, 0, 0x80, 0, 0xff, 0, 0] 1 100 = some s ∧
      s.Answers [0x05, 0, 0, 0x80, 0, 0xff, 0, 0] := by
  obtain ⟨s, hinit, hanswers, -⟩ := @init_answers [0x05, 0, 0, 0x80, 0, 0xff, 0, 0] 4 2 (by decide)
    rfl le_rfl (by decide) 1 100
  exact ⟨s, hinit, hanswers⟩

/-- The bits of `2 ^ 28` bytes are too many for an `int`. -/
theorem not_init_answers :
    ¬ ∀ (data : Bytes) (chunkSize k lb0CacheSize lb1CacheSize : Nat), 4 ∣ data.length →
      chunkSize = 2 ^ k → 4 ≤ chunkSize →
      ∃ s, init chunkSize data lb0CacheSize lb1CacheSize = some s ∧ s.Answers data := by
  intro hall
  obtain ⟨s, hinit, -⟩ := hall (List.replicate (2 ^ 28) 0) 32 5 0 0
    (by rw [List.length_replicate]; decide) rfl (by decide)
  have hlt := length_lt_of_init hinit
  rw [List.length_replicate] at hlt
  exact absurd hlt (by decide)

end SimpleSuccinctBitVectorIndex

end Mozkey.Storage
