import Mozkey.Composer.Transliterators

/-! The length that `CharChunk` of `composer/char_chunk.h` keeps for its local transliterator: where it
is written and where it is given up, and that it is never out of date, so that a chunk with it does
what the chunk does that counts anew each time. -/

namespace Mozkey.Composer

open Storage Base Session

/-- The texts and the attributes of a chunk with `local_length_cache_`, where `npos` is `none`. -/
structure CachedCharChunk where
  chunk : CharChunk
  localLengthCache : Option Nat := none
  deriving DecidableEq

namespace CachedCharChunk

variable (transliterators : Transliterators) (table : Table) (self : CachedCharChunk)

def new (transliterator : Transliterator) : CachedCharChunk := { chunk := { transliterator } }

def clear : CachedCharChunk := { chunk := self.chunk.clear, localLengthCache := none }

def setRaw (raw : Bytes) : CachedCharChunk :=
  { chunk := { self.chunk with raw }, localLengthCache := none }

def setConversion (conversion : Bytes) : CachedCharChunk :=
  { chunk := { self.chunk with conversion }, localLengthCache := none }

def setPending (pending : Bytes) : CachedCharChunk :=
  { chunk := { self.chunk with pending }, localLengthCache := none }

def setAmbiguous (ambiguous : Bytes) : CachedCharChunk :=
  { chunk := { self.chunk with ambiguous }, localLengthCache := none }

def setAttributes (attributes : TableAttributes) : CachedCharChunk :=
  { chunk := { self.chunk with attributes }, localLengthCache := none }

def setTransliterator : Option Transliterator → CachedCharChunk
  | none => self
  | some transliterator =>
    { chunk := { self.chunk with transliterator }, localLengthCache := none }

def getLength (t12r : Option Transliterator) : Nat × CachedCharChunk :=
  match t12r, self.localLengthCache with
  | none, some length => (length, self)
  | none, none =>
    let length := charsLen (self.chunk.result transliterators none)
    (length, { self with localLengthCache := some length })
  | some t12r, _ => (charsLen (self.chunk.result transliterators (some t12r)), self)

/-- `AddInputInternal`, which gives the length up before it looks at what was found. -/
def addInputInternal (input : Bytes) : Option ((Bool × Bytes) × CachedCharChunk) :=
  let self := { self with localLengthCache := none }
  (self.chunk.addInputInternal table input).map fun r => (r.1, { self with chunk := r.2 })

def addInput : (fuel : Nat) → (input : Bytes) → CachedCharChunk → Option (Bytes × CachedCharChunk)
  | 0, _, _ => none
  | fuel + 1, input, self => do
    let ((loop, input), self) ← self.addInputInternal table input
    if loop then addInput fuel input self else some (input, self)

def addInputAndConvertedChar (input : CompositionInput) : CompositionInput × CachedCharChunk :=
  let self := { self with localLengthCache := none }
  let (input, chunk) := self.chunk.addInputAndConvertedChar table input
  (input, { self with chunk })

def addCompositionInput (fuel : Nat) (input : CompositionInput) :
    Option (CompositionInput × CachedCharChunk) :=
  let self := { self with localLengthCache := none }
  if input.conversion ≠ [] then some (self.addInputAndConvertedChar table input)
  else if self.chunk.shouldInsertNewChunk table input then some (input, self)
  else (addInput table fuel input.raw self).map fun r => ({ input with raw := r.1 }, r.2)

def combine (left : CachedCharChunk) : CachedCharChunk :=
  { chunk := self.chunk.combine left.chunk, localLengthCache := none }

/-- The left chunk that `SplitChunk` makes, from the constructor on, and this chunk after it. -/
def splitTexts (t12r : Option Transliterator) (position : Nat) : CachedCharChunk × CachedCharChunk :=
  let self := { self with localLengthCache := none }
  let chunk := self.chunk
  let ((rawLhs, rawRhs), (convertedLhs, convertedRhs)) :=
    transliterators.split (chunk.getTransliterator t12r) position (deleteSpecialKeys chunk.raw)
      (deleteSpecialKeys (chunk.conversion ++ chunk.pending))
  let left := (new chunk.transliterator).setRaw rawLhs
  let self := self.setRaw rawRhs
  if chunk.conversion.length < convertedLhs.length then
    ((left.setConversion chunk.conversion).setPending (convertedLhs.drop chunk.conversion.length),
      { self with chunk := { self.chunk with conversion := [], pending := convertedRhs, ambiguous := [] } })
  else
    (left.setConversion convertedLhs,
      { self with
        chunk :=
          { self.chunk with
            conversion :=
              if convertedRhs.length < chunk.pending.length then convertedRhs
              else convertedRhs.take (convertedRhs.length - chunk.pending.length) } })

def splitChunk (t12r : Option Transliterator) (position : Nat) :
    Option CachedCharChunk × CachedCharChunk :=
  if position = 0 then (none, self)
  else
    let (length, self) := self.getLength transliterators t12r
    if length ≤ position then (none, self)
    else
      let (left, self) := self.splitTexts transliterators t12r position
      (some left, self)

/-- The chunks that are reached by the operations.  A copy of a chunk has all of its fields and is the
same value; the table may be another one in each chunk. -/
inductive Reachable (transliterators : Transliterators) : CachedCharChunk → Prop
  | new (t12r : Transliterator) : Reachable transliterators (new t12r)
  | clear {c} : Reachable transliterators c → Reachable transliterators c.clear
  | setRaw {c} (raw : Bytes) : Reachable transliterators c → Reachable transliterators (c.setRaw raw)
  | setConversion {c} (conversion : Bytes) : Reachable transliterators c →
      Reachable transliterators (c.setConversion conversion)
  | setPending {c} (pending : Bytes) : Reachable transliterators c →
      Reachable transliterators (c.setPending pending)
  | setAmbiguous {c} (ambiguous : Bytes) : Reachable transliterators c →
      Reachable transliterators (c.setAmbiguous ambiguous)
  | setAttributes {c} (attributes : TableAttributes) : Reachable transliterators c →
      Reachable transliterators (c.setAttributes attributes)
  | setTransliterator {c} (t12r : Option Transliterator) : Reachable transliterators c →
      Reachable transliterators (c.setTransliterator t12r)
  | getLength {c} (t12r : Option Transliterator) : Reachable transliterators c →
      Reachable transliterators (c.getLength transliterators t12r).2
  | addInputInternal {c c'} {table : Table} {input : Bytes} {r : Bool × Bytes} :
      Reachable transliterators c → c.addInputInternal table input = some (r, c') →
      Reachable transliterators c'
  | addInput {c c'} {table : Table} {fuel : Nat} {input rest : Bytes} : Reachable transliterators c →
      addInput table fuel input c = some (rest, c') → Reachable transliterators c'
  | addCompositionInput {c c'} {table : Table} {fuel : Nat} {input rest : CompositionInput} :
      Reachable transliterators c → c.addCompositionInput table fuel input = some (rest, c') →
      Reachable transliterators c'
  | combine {c left} : Reachable transliterators c → Reachable transliterators left →
      Reachable transliterators (c.combine left)
  | splitChunk {c} (t12r : Option Transliterator) (position : Nat) : Reachable transliterators c →
      Reachable transliterators (c.splitChunk transliterators t12r position).2
  | splitChunkLeft {c left} {t12r : Option Transliterator} {position : Nat} :
      Reachable transliterators c → (c.splitChunk transliterators t12r position).1 = some left →
      Reachable transliterators left

def CacheValid : Prop :=
  self.localLengthCache = none ∨
    self.localLengthCache = some (charsLen (self.chunk.result transliterators none))

section valid

variable {transliterators : Transliterators} {table : Table} {self : CachedCharChunk}

theorem CacheValid.getLength (h : self.CacheValid transliterators) (t12r : Option Transliterator) :
    (self.getLength transliterators t12r).2.CacheValid transliterators := by
  rw [CachedCharChunk.getLength.eq_def]
  split
  · exact h
  · exact .inr rfl
  · exact h

theorem CacheValid.getLength_eq (h : self.CacheValid transliterators) (t12r : Option Transliterator) :
    (self.getLength transliterators t12r).1 = self.chunk.getLength transliterators t12r := by
  rw [CachedCharChunk.getLength.eq_def]
  split
  · next length hcache =>
    rcases h with hnone | hsome
    · rw [hcache] at hnone
      cases hnone
    · rw [hcache] at hsome
      exact Option.some.inj hsome
  · rfl
  · rfl

theorem chunk_getLength (self : CachedCharChunk) (t12r : Option Transliterator) :
    (self.getLength transliterators t12r).2.chunk = self.chunk := by
  rw [CachedCharChunk.getLength.eq_def]
  split <;> rfl

theorem addInputInternal_unset {input : Bytes} {r : Bool × Bytes} {c : CachedCharChunk}
    (h : self.addInputInternal table input = some (r, c)) : c.localLengthCache = none := by
  obtain ⟨r', -, hr⟩ := Option.map_eq_some_iff.mp h
  rw [Prod.mk.injEq] at hr
  exact hr.2 ▸ rfl

theorem addInput_unset {fuel : Nat} {input rest : Bytes} {c : CachedCharChunk}
    (h : addInput table fuel input self = some (rest, c)) : c.localLengthCache = none := by
  induction fuel generalizing input self with
  | zero => cases h
  | succ fuel ih =>
    rw [addInput] at h
    obtain ⟨⟨⟨loop, input'⟩, self'⟩, hround, h⟩ := Option.bind_eq_some_iff.mp h
    dsimp only at h
    split at h
    · exact ih h
    · obtain ⟨rfl, rfl⟩ := Prod.mk.inj (Option.some.inj h)
      exact addInputInternal_unset hround

theorem addCompositionInput_unset {fuel : Nat} {input rest : CompositionInput} {c : CachedCharChunk}
    (h : self.addCompositionInput table fuel input = some (rest, c)) : c.localLengthCache = none := by
  rw [addCompositionInput] at h
  dsimp only at h
  split at h
  · exact (Prod.mk.inj (Option.some.inj h)).2 ▸ rfl
  split at h
  · exact (Prod.mk.inj (Option.some.inj h)).2 ▸ rfl
  · obtain ⟨⟨rest', c'⟩, hadd, hr⟩ := Option.map_eq_some_iff.mp h
    rw [Prod.mk.injEq] at hr
    exact hr.2 ▸ addInput_unset hadd

theorem splitTexts_unset (self : CachedCharChunk) (t12r : Option Transliterator) (position : Nat) :
    (self.splitTexts transliterators t12r position).1.localLengthCache = none ∧
      (self.splitTexts transliterators t12r position).2.localLengthCache = none := by
  rw [splitTexts]
  dsimp only
  split <;> exact ⟨rfl, rfl⟩

theorem CacheValid.splitChunk (h : self.CacheValid transliterators) (t12r : Option Transliterator)
    (position : Nat) :
    (self.splitChunk transliterators t12r position).2.CacheValid transliterators ∧
      ∀ left, (self.splitChunk transliterators t12r position).1 = some left →
        left.CacheValid transliterators := by
  rw [CachedCharChunk.splitChunk]
  split
  · exact ⟨h, nofun⟩
  dsimp only
  split
  · exact ⟨h.getLength t12r, nofun⟩
  · obtain ⟨hleft, hself⟩ :=
      @splitTexts_unset transliterators (self.getLength transliterators t12r).2 t12r position
    exact ⟨.inl hself, fun left hsome => Option.some.inj hsome ▸ .inl hleft⟩

/-- The length that a chunk keeps is never out of date. -/
theorem cacheValid_of_reachable {c : CachedCharChunk} (h : Reachable transliterators c) :
    c.localLengthCache = none ∨
      c.localLengthCache = some (charsLen (c.chunk.result transliterators none)) := by
  show c.CacheValid transliterators
  induction h with
  | new | clear | setRaw | setConversion | setPending | setAmbiguous | setAttributes | combine =>
    exact .inl rfl
  | setTransliterator t12r _ ih =>
    cases t12r with
    | none => exact ih
    | some t12r => exact .inl rfl
  | getLength t12r _ ih => exact ih.getLength t12r
  | addInputInternal _ hadd => exact .inl (addInputInternal_unset hadd)
  | addInput _ hadd => exact .inl (addInput_unset hadd)
  | addCompositionInput _ hadd => exact .inl (addCompositionInput_unset hadd)
  | splitChunk t12r position _ ih => exact (ih.splitChunk t12r position).1
  | splitChunkLeft _ hleft ih => exact (ih.splitChunk _ _).2 _ hleft

/-- `a`, whose length is known after it was asked for. -/
theorem cacheValid_of_reachable_a :
    (((new .rawString).setRaw [0x61]).getLength plainUtil.transliterators none).2.localLengthCache =
        none ∨
      (((new .rawString).setRaw [0x61]).getLength plainUtil.transliterators none).2.localLengthCache =
        some (charsLen ((((new .rawString).setRaw [0x61]).getLength plainUtil.transliterators
          none).2.chunk.result plainUtil.transliterators none)) :=
  cacheValid_of_reachable (.getLength none (.setRaw [0x61] (.new .rawString)))

end valid

/-! What the chunk does that counts anew each time. -/

section simulation

variable {transliterators : Transliterators} {table : Table} {self : CachedCharChunk}

theorem addInput_chunk (fuel : Nat) (input : Bytes) (self : CachedCharChunk) :
    (addInput table fuel input self).map (fun r => (r.1, r.2.chunk)) =
      CharChunk.addInput table fuel input self.chunk := by
  induction fuel generalizing input self with
  | zero => rfl
  | succ fuel ih =>
    rw [addInput, CharChunk.addInput, addInputInternal]
    cases self.chunk.addInputInternal table input with
    | none => rfl
    | some r =>
      obtain ⟨⟨loop, input'⟩, chunk⟩ := r
      cases loop with
      | false => rfl
      | true => exact ih input' { chunk, localLengthCache := none }

theorem addCompositionInput_chunk (fuel : Nat) (input : CompositionInput) (self : CachedCharChunk) :
    (self.addCompositionInput table fuel input).map (fun r => (r.1, r.2.chunk)) =
      self.chunk.addCompositionInput table fuel input := by
  rw [addCompositionInput, CharChunk.addCompositionInput]
  dsimp only
  split
  · rfl
  split
  · rfl
  · rw [← addInput_chunk fuel input.raw { self with localLengthCache := none }, Option.map_map,
      Option.map_map]
    rfl

theorem splitTexts_chunk (self : CachedCharChunk) {t12r : Option Transliterator} {position : Nat}
    (hpos : ¬(position = 0 ∨ self.chunk.getLength transliterators t12r ≤ position)) :
    self.chunk.splitChunk transliterators t12r position =
      some ((self.splitTexts transliterators t12r position).1.chunk,
        (self.splitTexts transliterators t12r position).2.chunk) := by
  rw [CharChunk.splitChunk, if_neg hpos, splitTexts]
  dsimp only
  split <;> rfl

/-- A split at a length that is not out of date is the split of the texts. -/
theorem CacheValid.splitChunk_chunk (h : self.CacheValid transliterators)
    (t12r : Option Transliterator) (position : Nat) :
    (self.splitChunk transliterators t12r position).1.map
        (fun left => (left.chunk, (self.splitChunk transliterators t12r position).2.chunk)) =
      self.chunk.splitChunk transliterators t12r position := by
  have hchunk := @chunk_getLength transliterators self t12r
  have hcached : position ≠ 0 → self.splitChunk transliterators t12r position =
      if (self.getLength transliterators t12r).1 ≤ position then
        (none, (self.getLength transliterators t12r).2)
      else
        (some ((self.getLength transliterators t12r).2.splitTexts transliterators t12r position).1,
          ((self.getLength transliterators t12r).2.splitTexts transliterators t12r position).2) := by
    intro hne
    rw [CachedCharChunk.splitChunk, if_neg hne]
  rw [h.getLength_eq] at hcached
  by_cases hpos : position = 0 ∨ self.chunk.getLength transliterators t12r ≤ position
  · rw [CharChunk.splitChunk, if_pos hpos]
    by_cases hzero : position = 0
    · rw [CachedCharChunk.splitChunk, if_pos hzero, Option.map_none]
    · rw [hcached hzero, if_pos (hpos.resolve_left hzero), Option.map_none]
  · have hsplit := splitTexts_chunk (self.getLength transliterators t12r).2 (hchunk.symm ▸ hpos)
    rw [hchunk] at hsplit
    rw [hsplit, hcached fun hzero => hpos (.inl hzero), if_neg fun hle => hpos (.inr hle),
      Option.map_some]

theorem splitChunk_none_chunk {t12r : Option Transliterator} {position : Nat}
    (h : (self.splitChunk transliterators t12r position).1 = none) :
    (self.splitChunk transliterators t12r position).2.chunk = self.chunk := by
  rw [CachedCharChunk.splitChunk] at h ⊢
  split at h
  · rename_i hzero
    rw [if_pos hzero]
  · rename_i hne
    rw [if_neg hne]
    dsimp only at h ⊢
    split at h
    · rename_i hle
      rw [if_pos hle]
      exact chunk_getLength self t12r
    · cases h

/-- A call of a chunk. -/
inductive Operation
  | clear
  | setRaw (raw : Bytes)
  | setConversion (conversion : Bytes)
  | setPending (pending : Bytes)
  | setAmbiguous (ambiguous : Bytes)
  | setAttributes (attributes : TableAttributes)
  | setTransliterator (t12r : Option Transliterator)
  | getLength (t12r : Option Transliterator)
  | addInput (table : Table) (fuel : Nat) (input : Bytes)
  | addCompositionInput (table : Table) (fuel : Nat) (input : CompositionInput)
  | combine (left : CachedCharChunk)
  | splitChunk (t12r : Option Transliterator) (position : Nat)

inductive Observation
  | done
  | length (length : Nat)
  | rest (input : Bytes)
  | restInput (input : CompositionInput)
  | left (left : Option CharChunk)

def perform (transliterators : Transliterators) (self : CachedCharChunk) :
    Operation → Option (Observation × CachedCharChunk)
  | .clear => some (.done, self.clear)
  | .setRaw raw => some (.done, self.setRaw raw)
  | .setConversion conversion => some (.done, self.setConversion conversion)
  | .setPending pending => some (.done, self.setPending pending)
  | .setAmbiguous ambiguous => some (.done, self.setAmbiguous ambiguous)
  | .setAttributes attributes => some (.done, self.setAttributes attributes)
  | .setTransliterator t12r => some (.done, self.setTransliterator t12r)
  | .getLength t12r => some ((self.getLength transliterators t12r).map .length id)
  | .addInput table fuel input => (addInput table fuel input self).map (Prod.map .rest id)
  | .addCompositionInput table fuel input =>
    (self.addCompositionInput table fuel input).map (Prod.map .restInput id)
  | .combine left => some (.done, self.combine left)
  | .splitChunk t12r position =>
    let r := self.splitChunk transliterators t12r position
    some (.left (r.1.map CachedCharChunk.chunk), r.2)

/-- The same call of a chunk that counts anew each time. -/
def performUncached (transliterators : Transliterators) (chunk : CharChunk) :
    Operation → Option (Observation × CharChunk)
  | .clear => some (.done, chunk.clear)
  | .setRaw raw => some (.done, { chunk with raw })
  | .setConversion conversion => some (.done, { chunk with conversion })
  | .setPending pending => some (.done, { chunk with pending })
  | .setAmbiguous ambiguous => some (.done, { chunk with ambiguous })
  | .setAttributes attributes => some (.done, { chunk with attributes })
  | .setTransliterator t12r =>
    some (.done, { chunk with transliterator := t12r.getD chunk.transliterator })
  | .getLength t12r => some (.length (chunk.getLength transliterators t12r), chunk)
  | .addInput table fuel input => (chunk.addInput table fuel input).map (Prod.map .rest id)
  | .addCompositionInput table fuel input =>
    (chunk.addCompositionInput table fuel input).map (Prod.map .restInput id)
  | .combine left => some (.done, chunk.combine left.chunk)
  | .splitChunk t12r position =>
    match chunk.splitChunk transliterators t12r position with
    | none => some (.left none, chunk)
    | some (left, chunk) => some (.left (some left), chunk)

/-- The calls one after another, and what is seen of each. -/
def run {σ : Type} (step : σ → Operation → Option (Observation × σ)) :
    List Operation → σ → Option (List Observation × σ)
  | [], s => some ([], s)
  | op :: ops, s => do
    let (seen, s) ← step s op
    let (rest, s) ← run step ops s
    some (seen :: rest, s)

theorem CacheValid.perform_chunk (h : self.CacheValid transliterators) (op : Operation) :
    (self.perform transliterators op).map (fun r => (r.1, r.2.chunk)) =
      performUncached transliterators self.chunk op := by
  cases op with
  | setTransliterator t12r => cases t12r <;> rfl
  | getLength t12r =>
    rw [perform, performUncached, ← h.getLength_eq, ← @chunk_getLength transliterators self t12r]
    rfl
  | addInput table fuel input =>
    rw [perform, performUncached, ← addInput_chunk, Option.map_map, Option.map_map]
    rfl
  | addCompositionInput table fuel input =>
    rw [perform, performUncached, ← addCompositionInput_chunk, Option.map_map, Option.map_map]
    rfl
  | splitChunk t12r position =>
    rw [performUncached, ← h.splitChunk_chunk]
    rcases hleft : (self.splitChunk transliterators t12r position).1 with _ | left
    · have hchunk : (self.splitChunk transliterators t12r position).2.chunk = self.chunk :=
        splitChunk_none_chunk hleft
      simp [perform, hleft, hchunk]
    · simp [perform, hleft]
  | _ => rfl

theorem CacheValid.perform (h : self.CacheValid transliterators) {op : Operation}
    {r : Observation × CachedCharChunk} (hr : self.perform transliterators op = some r) :
    r.2.CacheValid transliterators := by
  cases op with
  | setTransliterator t12r =>
    cases hr
    cases t12r with
    | none => exact h
    | some t12r => exact .inl rfl
  | getLength t12r =>
    cases hr
    exact h.getLength t12r
  | addInput table fuel input =>
    obtain ⟨r', hadd, rfl⟩ := Option.map_eq_some_iff.mp hr
    exact .inl (addInput_unset hadd)
  | addCompositionInput table fuel input =>
    obtain ⟨r', hadd, rfl⟩ := Option.map_eq_some_iff.mp hr
    exact .inl (addCompositionInput_unset hadd)
  | splitChunk t12r position =>
    cases hr
    exact (h.splitChunk t12r position).1
  | _ =>
    cases hr
    exact .inl rfl

theorem CacheValid.run_chunk (h : self.CacheValid transliterators) (ops : List Operation) :
    (run (CachedCharChunk.perform transliterators) ops self).map (fun r => (r.1, r.2.chunk)) =
      run (performUncached transliterators) ops self.chunk := by
  induction ops generalizing self with
  | nil => rfl
  | cons op ops ih =>
    rw [run, run, ← h.perform_chunk op]
    cases hr : self.perform transliterators op with
    | none => rfl
    | some r =>
      have hrest := ih (h.perform hr)
      simp only [Option.map_some, Option.bind_eq_bind, Option.bind_some, ← hrest]
      cases run (CachedCharChunk.perform transliterators) ops r.2 <;> rfl

/-- Whatever calls are made of a new chunk, what is seen of them and the chunk itself are those of a
chunk that keeps no length. -/
theorem run_new (t12r : Transliterator) (ops : List Operation) :
    (run (CachedCharChunk.perform transliterators) ops (new t12r)).map
        (fun r => (r.1, r.2.chunk)) =
      run (performUncached transliterators) ops { transliterator := t12r } :=
  CacheValid.run_chunk (.inl rfl) ops

end simulation

end CachedCharChunk

end Mozkey.Composer
