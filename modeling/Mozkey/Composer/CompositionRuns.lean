import Mozkey.Composer.Composition
import Mozkey.Lib.Runs

/-! Runs of a composition, and what all of them keep of the chunks. -/

namespace Mozkey.Composer

open Storage Base Session Lib

namespace Composition

/-- The operations that change a composition.  `InsertAt` and `InsertKeyAndPreeditAt` are
`InsertInput`, and `SetDisplayMode` is `SetTransliterator` and `SetInputMode`. -/
inductive Event where
  | insertInput (position : Nat) (input : CompositionInput)
  | deleteAt (position : Nat)
  | setTransliterator (positionFrom positionTo : Nat) (t12r : Transliterator)
  | setInputMode (t12r : Transliterator)
  | erase

section

variable (transliterators : Transliterators) (table : Table) (fuel : Nat)

def step (composition : Composition) : Event → Option Composition
  | .insertInput position input =>
    (composition.insertInput transliterators table fuel position input).map Prod.snd
  | .deleteAt position => (composition.deleteAt transliterators fuel position).map Prod.snd
  | .setTransliterator positionFrom positionTo t12r =>
    some (composition.setTransliterator transliterators positionFrom positionTo t12r)
  | .setInputMode t12r => some (composition.setInputMode t12r)
  | .erase => some composition.erase

/-- A property of a chunk that everything done to a chunk keeps. -/
structure ChunkInvariant (P : CharChunk → Prop) : Prop where
  fresh : ∀ t12r, P { transliterator := t12r }
  add : ∀ fuel chunk input r, P chunk →
    chunk.addCompositionInput table fuel input = some r → P r.2
  combine : ∀ chunk left, P chunk → P left → P (chunk.combine left)
  split : ∀ chunk t12r position parts, P chunk →
    chunk.splitChunk transliterators t12r position = some parts → P parts.1 ∧ P parts.2
  setTransliterator : ∀ chunk t12r, P chunk → P { chunk with transliterator := t12r }

end

section

variable {transliterators : Transliterators} {table : Table} {P : CharChunk → Prop}
  {composition composition' : Composition}

theorem ChunkInvariant.maybeSplitChunkAt (hP : ChunkInvariant transliterators table P)
    (h : ∀ chunk ∈ composition.chunks, P chunk) (position : Nat) :
    (∀ chunk ∈ (composition.maybeSplitChunkAt transliterators position).1, P chunk) ∧
      ∀ chunk ∈ (composition.maybeSplitChunkAt transliterators position).2, P chunk := by
  rw [Composition.maybeSplitChunkAt]
  dsimp only
  split
  · exact ⟨nofun, h⟩
  rename_i chunk hchunk
  have hmem := h chunk (List.mem_of_getElem? hchunk)
  split
  · exact ⟨nofun, h⟩
  split
  · exact ⟨fun c hc => h c (List.mem_of_mem_take hc), fun c hc => h c (List.mem_of_mem_drop hc)⟩
  split
  · rename_i left right hsplit
    obtain ⟨hleft, hright⟩ := hP.split _ _ _ _ hmem hsplit
    constructor
    · intro c hc
      rcases List.mem_append.mp hc with hc | hc
      · exact h c (List.mem_of_mem_take hc)
      · exact List.mem_singleton.mp hc ▸ hleft
    · intro c hc
      rcases List.mem_cons.mp hc with hc | hc
      · exact hc ▸ hright
      · exact h c (List.mem_of_mem_drop hc)
  · exact ⟨fun c hc => h c (List.mem_of_mem_take hc), fun c hc => h c (List.mem_of_mem_drop hc)⟩

theorem ChunkInvariant.getInsertionChunk (hP : ChunkInvariant transliterators table P)
    (composition : Composition) {left : List CharChunk} (h : ∀ chunk ∈ left, P chunk) :
    (∀ chunk ∈ (composition.getInsertionChunk left).1, P chunk) ∧
      P (composition.getInsertionChunk left).2 := by
  rw [Composition.getInsertionChunk]
  split
  · exact ⟨nofun, hP.fresh _⟩
  · rename_i last hlast
    split
    · exact ⟨fun c hc => h c (List.mem_of_mem_dropLast hc), h last (List.mem_of_getLast? hlast)⟩
    · exact ⟨h, hP.fresh _⟩

theorem ChunkInvariant.combineLoop (hP : ChunkInvariant transliterators table P)
    (composition : Composition) (nextInput : Bytes) {lefts : List CharChunk} {chunk : CharChunk}
    (h : ∀ c ∈ lefts, P c) (hchunk : P chunk) :
    (∀ c ∈ (combinePendingChunksLoop composition table nextInput lefts chunk).1, P c) ∧
      P (combinePendingChunksLoop composition table nextInput lefts chunk).2 := by
  induction lefts generalizing chunk with
  | nil => exact ⟨h, hchunk⟩
  | cons left lefts ih =>
    rw [combinePendingChunksLoop]
    split
    · apply ih
      · exact fun c hc => h c (List.mem_cons_of_mem _ hc)
      · exact hP.combine _ _ hchunk (h left List.mem_cons_self)
    · exact ⟨h, hchunk⟩

theorem ChunkInvariant.combinePendingChunks (hP : ChunkInvariant transliterators table P)
    (composition : Composition) (input : CompositionInput) {before : List CharChunk}
    {chunk : CharChunk} (h : ∀ c ∈ before, P c) (hchunk : P chunk) :
    (∀ c ∈ (composition.combinePendingChunks table input before chunk).1, P c) ∧
      P (composition.combinePendingChunks table input before chunk).2 := by
  rw [Composition.combinePendingChunks]
  split
  · exact ⟨h, hchunk⟩
  · dsimp only
    obtain ⟨hlefts, hlast⟩ := hP.combineLoop composition
      (if input.conversion = [] then input.raw else input.conversion)
      (fun c hc => h c (List.mem_reverse.mp hc)) hchunk
    exact ⟨fun c hc => hlefts c (List.mem_reverse.mp hc), hlast⟩

theorem ChunkInvariant.insertInputLoop (hP : ChunkInvariant transliterators table P)
    (composition : Composition) {fuel : Nat} {input : CompositionInput}
    {before before' : List CharChunk} {chunk chunk' : CharChunk} (h : ∀ c ∈ before, P c)
    (hchunk : P chunk)
    (hloop : composition.insertInputLoop table fuel input before chunk = some (before', chunk')) :
    (∀ c ∈ before', P c) ∧ P chunk' := by
  induction fuel generalizing input before chunk with
  | zero => cases hloop
  | succ fuel ih =>
    rw [Composition.insertInputLoop] at hloop
    obtain ⟨r, hadd, hrest⟩ := Option.bind_eq_some_iff.mp hloop
    have hnext := hP.add _ _ _ _ hchunk hadd
    dsimp only at hrest
    split at hrest
    · cases hrest
      exact ⟨h, hnext⟩
    · refine ih ?_ (hP.fresh _) hrest
      intro c hc
      rcases List.mem_append.mp hc with hc | hc
      · exact h c hc
      · exact List.mem_singleton.mp hc ▸ hnext

theorem ChunkInvariant.insertInput (hP : ChunkInvariant transliterators table P)
    (h : ∀ chunk ∈ composition.chunks, P chunk) {fuel position position' : Nat}
    {input : CompositionInput}
    (hinsert : composition.insertInput transliterators table fuel position input =
      some (position', composition')) : ∀ chunk ∈ composition'.chunks, P chunk := by
  rw [Composition.insertInput] at hinsert
  split at hinsert
  · cases hinsert
    exact h
  dsimp only at hinsert
  obtain ⟨hleft, hright⟩ := hP.maybeSplitChunkAt h position
  generalize composition.maybeSplitChunkAt transliterators position = parts at hinsert hleft hright
  obtain ⟨left, right⟩ := parts
  dsimp only at hinsert hleft hright
  generalize hinvisible : (fun chunk : CharChunk => decide
    (chunk.getLength transliterators (some composition.inputT12r) = 0)) = isInvisible at hinsert
  have hall : ∀ c ∈ left ++ right.takeWhile isInvisible, P c := by
    intro c hc
    rcases List.mem_append.mp hc with hc | hc
    · exact hleft c hc
    · exact hright c ((List.takeWhile_prefix isInvisible).subset hc)
  obtain ⟨hbefore, hchunk⟩ := hP.getInsertionChunk composition hall
  obtain ⟨hbefore, hchunk⟩ := hP.combinePendingChunks composition input hbefore hchunk
  obtain ⟨r, hloop, hr⟩ := Option.bind_eq_some_iff.mp hinsert
  obtain ⟨hbefore, hchunk⟩ := hP.insertInputLoop composition hbefore hchunk hloop
  obtain ⟨before, chunk⟩ := r
  cases hr
  intro c hc
  rcases List.mem_append.mp hc with hc | hc
  · dsimp only at hc
    split at hc
    · exact hbefore c hc
    · rcases List.mem_append.mp hc with hc | hc
      · exact hbefore c hc
      · exact List.mem_singleton.mp hc ▸ hchunk
  · exact hright c ((List.dropWhile_suffix isInvisible).subset hc)

theorem ChunkInvariant.deleteAtLoop (hP : ChunkInvariant transliterators table P)
    (h : ∀ chunk ∈ composition.chunks, P chunk) {originalSize position fuel newPosition position' : Nat}
    (hdelete : deleteAtLoop transliterators originalSize position fuel newPosition composition =
      some (position', composition')) : ∀ chunk ∈ composition'.chunks, P chunk := by
  induction fuel generalizing newPosition composition with
  | zero => cases hdelete
  | succ fuel ih =>
    rw [Composition.deleteAtLoop] at hdelete
    split at hdelete
    · cases hdelete
      exact h
    obtain ⟨hleft, hright⟩ := hP.maybeSplitChunkAt h position
    generalize composition.maybeSplitChunkAt transliterators position = parts at hdelete hleft hright
    obtain ⟨left, _ | ⟨chunk, right⟩⟩ := parts
    · cases hdelete
      exact hleft
    dsimp only at hdelete hleft hright
    have hrest : ∀ c ∈ right, P c := fun c hc => hright c (List.mem_cons_of_mem _ hc)
    split at hdelete
    · refine ih ?_ hdelete
      intro c hc
      exact (List.mem_append.mp hc).elim (hleft c) (hrest c)
    · refine ih ?_ hdelete
      have hcut : P (((chunk.splitChunk transliterators none 1).map Prod.snd).getD chunk) := by
        cases hsplit : chunk.splitChunk transliterators none 1 with
        | none => exact hright chunk List.mem_cons_self
        | some parts => exact (hP.split _ _ _ _ (hright chunk List.mem_cons_self) hsplit).2
      intro c hc
      rcases List.mem_append.mp hc with hc | hc
      · exact hleft c hc
      · rcases List.mem_cons.mp hc with hc | hc
        · exact hc ▸ hcut
        · exact hrest c hc

theorem ChunkInvariant.setTransliterator_chunks (hP : ChunkInvariant transliterators table P)
    (h : ∀ chunk ∈ composition.chunks, P chunk) (positionFrom positionTo : Nat)
    (t12r : Transliterator) :
    ∀ chunk ∈ (composition.setTransliterator transliterators positionFrom positionTo t12r).chunks,
      P chunk := by
  rw [Composition.setTransliterator]
  split
  · exact h
  · intro chunk hchunk
    obtain ⟨index, hindex, rfl⟩ := List.mem_mapIdx.mp hchunk
    have hmem := h _ (List.getElem_mem hindex)
    split
    · exact hP.setTransliterator _ _ hmem
    · exact hmem

theorem ChunkInvariant.run (hP : ChunkInvariant transliterators table P) {fuel : Nat}
    {ok : Composition → Event → Prop} {inputT12r : Transliterator} {events : List Event}
    (hrun : Run (step transliterators table fuel) ok { inputT12r := inputT12r } events composition) :
    ∀ chunk ∈ composition.chunks, P chunk := by
  refine hrun.inv (p := fun composition : Composition => ∀ chunk ∈ composition.chunks, P chunk)
    nofun ?_
  intro composition event composition' h _ hstep
  cases event with
  | insertInput position input =>
    obtain ⟨r, hinsert, rfl⟩ := Option.map_eq_some_iff.mp hstep
    exact hP.insertInput h hinsert
  | deleteAt position =>
    obtain ⟨r, hdelete, rfl⟩ := Option.map_eq_some_iff.mp hstep
    exact hP.deleteAtLoop h hdelete
  | setTransliterator positionFrom positionTo t12r =>
    cases hstep
    exact hP.setTransliterator_chunks h positionFrom positionTo t12r
  | setInputMode t12r =>
    cases hstep
    exact h
  | erase =>
    cases hstep
    exact nofun

end

end Composition

end Mozkey.Composer
