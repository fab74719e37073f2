import Mozkey.Composer.CompositionPositions

/-! What `DeleteAt` takes away from a composition: the character at the position, where the chunk that
holds it is cut into what is displayed of its parts. -/

namespace Mozkey.Composer

open Storage Base Session

namespace CharChunk

variable (transliterators : Transliterators) (chunk : CharChunk)

/-- The parts of the chunk are displayed as the parts of what it displays. -/
def CutsEvenly (position : Nat) : Prop :=
  ∀ left right, chunk.splitChunk transliterators none position = some (left, right) →
    left.result transliterators none = utf8Take position (chunk.result transliterators none) ∧
      right.result transliterators none = utf8Drop position (chunk.result transliterators none)

instance (position : Nat) : Decidable (chunk.CutsEvenly transliterators position) :=
  decidable_of_iff ((chunk.splitChunk transliterators none position).all fun parts =>
      parts.1.result transliterators none = utf8Take position (chunk.result transliterators none) ∧
        parts.2.result transliterators none =
          utf8Drop position (chunk.result transliterators none)) <| by
    rw [CutsEvenly]
    cases chunk.splitChunk transliterators none position with
    | none => exact iff_of_true rfl nofun
    | some parts =>
      rw [Option.all_some, decide_eq_true_iff]
      refine ⟨fun h left right hparts => ?_, fun h => h parts.1 parts.2 rfl⟩
      rwa [Option.some.inj hparts] at h

def behind (position : Nat) : CharChunk :=
  ((chunk.splitChunk transliterators none position).map Prod.snd).getD chunk

/-- What `DeleteAt` leaves of a chunk whose first character goes. -/
def withoutFirst : List CharChunk :=
  if chunk.getLength transliterators none ≤ 1 then [] else [chunk.behind transliterators 1]

/-- What is displayed of the chunk is valid UTF-8. -/
def Valid : Prop := ∃ cs, chunk.result transliterators none = utf8 cs

variable {transliterators chunk}

theorem getLength_eq : chunk.getLength transliterators none =
    charsLen (chunk.result transliterators none) := rfl

theorem behind_zero : chunk.behind transliterators 0 = chunk := by
  rw [behind, splitChunk, if_pos (.inl rfl)]
  rfl

theorem exists_splitChunk {position : Nat} (hpos : 0 < position)
    (hlt : position < chunk.getLength transliterators none) :
    ∃ left right, chunk.splitChunk transliterators none position = some (left, right) ∧
      chunk.behind transliterators position = right := by
  have hinside : ¬ (position = 0 ∨ chunk.getLength transliterators none ≤ position) := by omega
  have hsome : (chunk.splitChunk transliterators none position).isSome := by
    rw [splitChunk, if_neg hinside]
    dsimp only
    split <;> rfl
  obtain ⟨⟨left, right⟩, hsplit⟩ := Option.isSome_iff_exists.mp hsome
  exact ⟨left, right, hsplit, by rw [behind, hsplit]; rfl⟩

theorem withoutFirst_result (heven : chunk.CutsEvenly transliterators 1) :
    ((chunk.withoutFirst transliterators).flatMap fun rest => rest.result transliterators none) =
      utf8Drop 1 (chunk.result transliterators none) := by
  rw [withoutFirst]
  split
  · rename_i hshort
    rw [getLength_eq] at hshort
    have hnone : charsLen (utf8Drop 1 (chunk.result transliterators none)) = 0 := by
      rw [charsLen_utf8Drop]
      omega
    rw [List.flatMap_nil, charsLen_eq_zero.mp hnone]
  · rename_i hlong
    obtain ⟨left, right, hsplit, hbehind⟩ := exists_splitChunk Nat.one_pos (Nat.lt_of_not_le hlong)
    rw [List.flatMap_singleton, hbehind]
    exact (heven left right hsplit).2

end CharChunk

namespace Composition

variable {transliterators : Transliterators} {composition : Composition} {before after left : List CharChunk}
  {chunk : CharChunk} {position inner : Nat}

section split

theorem getChunkAtLoop_of_inside {t12r : Option Transliterator} (hpos : 0 < inner)
    (hle : inner ≤ chunk.getLength transliterators t12r) :
    getChunkAtLoop transliterators t12r (before ++ chunk :: after)
      (lengthOf transliterators t12r before + inner) = (before.length, inner) := by
  induction before with
  | nil =>
    rw [List.nil_append, getChunkAtLoop, lengthOf_nil, Nat.zero_add, if_pos hle]
    rfl
  | cons c before ih =>
    have hsub : lengthOf transliterators t12r (c :: before) + inner - c.getLength transliterators t12r =
        lengthOf transliterators t12r before + inner := by
      rw [lengthOf_cons]
      omega
    rw [List.cons_append, getChunkAtLoop, hsub, if_neg (by rw [lengthOf_cons]; omega),
      if_neg (List.append_ne_nil_of_right_ne_nil before (List.cons_ne_nil chunk after)), ih]
    rfl

theorem maybeSplitChunkAt_zero : composition.maybeSplitChunkAt transliterators 0 =
    ([], composition.chunks) := by
  rw [maybeSplitChunkAt, getChunkAt]
  cases hchunks : composition.chunks with
  | nil => rfl
  | cons c chunks =>
    rw [getChunkAtLoop, if_pos (Nat.zero_le _)]
    rfl

theorem maybeSplitChunkAt_of_inside (hchunks : composition.chunks = before ++ chunk :: after)
    (hpos : 0 < inner) (hle : inner ≤ chunk.getLength transliterators none) :
    composition.maybeSplitChunkAt transliterators (lengthOf transliterators none before + inner) =
      if inner = chunk.getLength transliterators none then (before ++ [chunk], after)
      else
        match chunk.splitChunk transliterators none inner with
        | some (left, right) => (before ++ [left], right :: after)
        | none => (before, chunk :: after) := by
  have hget : composition.chunks[before.length]? = some chunk := by
    rw [hchunks, List.getElem?_append_right (Nat.le_refl _), Nat.sub_self]
    rfl
  have htake : composition.chunks.take before.length = before := by rw [hchunks, List.take_left]
  have hdrop : composition.chunks.drop before.length = chunk :: after := by rw [hchunks, List.drop_left]
  have htakeSucc : composition.chunks.take (before.length + 1) = before ++ [chunk] := by
    rw [hchunks, List.take_length_add_append]
    rfl
  have hdropSucc : composition.chunks.drop (before.length + 1) = after := by
    rw [hchunks, List.drop_length_add_append]
    rfl
  have hfound := @getChunkAtLoop_of_inside transliterators before after chunk inner none hpos hle
  rw [← hchunks] at hfound
  rw [maybeSplitChunkAt, getChunkAt, hfound]
  dsimp only
  rw [hget, htakeSucc, hdropSucc, htake, hdrop]
  dsimp only
  refine (if_neg ?_).trans ?_
  · omega
  · rfl

theorem maybeSplitChunkAt_of_boundary (hchunks : composition.chunks = left ++ after)
    (hlast : ∀ last ∈ left.getLast?, 0 < last.getLength transliterators none) :
    composition.maybeSplitChunkAt transliterators (lengthOf transliterators none left) =
      (left, after) := by
  cases hleft : left.getLast? with
  | none =>
    obtain rfl := List.getLast?_eq_none_iff.mp hleft
    rw [lengthOf_nil, maybeSplitChunkAt_zero, hchunks, List.nil_append]
  | some last =>
    obtain ⟨before, rfl⟩ := List.getLast?_eq_some_iff.mp hleft
    rw [List.append_assoc, List.singleton_append] at hchunks
    have hsplit := maybeSplitChunkAt_of_inside hchunks (hlast last hleft) (Nat.le_refl _)
    rw [if_pos rfl] at hsplit
    rw [lengthOf_append, lengthOf_cons, lengthOf_nil, Nat.add_zero, hsplit]

theorem exists_chunk_at {chunks : List CharChunk} (hpos : 0 < position)
    (hle : position ≤ lengthOf transliterators none chunks) :
    ∃ before chunk after inner, chunks = before ++ chunk :: after ∧
      lengthOf transliterators none before + inner = position ∧ 0 < inner ∧
      inner ≤ chunk.getLength transliterators none := by
  induction chunks generalizing position with
  | nil =>
    rw [lengthOf_nil] at hle
    omega
  | cons chunk chunks ih =>
    by_cases hhere : position ≤ chunk.getLength transliterators none
    · exact ⟨[], chunk, chunks, position, rfl, Nat.zero_add _, hpos, hhere⟩
    · rw [lengthOf_cons] at hle
      obtain ⟨before, c, after, inner, rfl, hposition, hinner, hinside⟩ :=
        @ih (position - chunk.getLength transliterators none) (by omega) (by omega)
      refine ⟨chunk :: before, c, after, inner, rfl, ?_, hinner, hinside⟩
      rw [lengthOf_cons]
      omega

end split

section rounds

variable {originalSize fuel newPosition : Nat}

theorem deleteAtLoop_stop (h : composition.getLength transliterators ≠ originalSize) :
    deleteAtLoop transliterators originalSize position (fuel + 1) newPosition composition =
      some (newPosition, composition) := by
  rw [deleteAtLoop, if_pos (.inr h)]

theorem deleteAtLoop_round (hsize : composition.getLength transliterators = originalSize)
    (hne : composition.chunks ≠ [])
    (hsplit : composition.maybeSplitChunkAt transliterators position = (left, chunk :: after)) :
    deleteAtLoop transliterators originalSize position (fuel + 1) newPosition composition =
      deleteAtLoop transliterators originalSize position fuel (lengthOf transliterators none left)
        { composition with
          chunks := left ++ (chunk.withoutFirst transliterators ++ after) } := by
  rw [deleteAtLoop, if_neg (not_or.mpr ⟨hne, not_not.mpr hsize⟩), hsplit]
  dsimp only
  rw [CharChunk.withoutFirst]
  split <;> rfl

theorem length_withoutFirst (heven : chunk.CutsEvenly transliterators 1) :
    lengthOf transliterators none (chunk.withoutFirst transliterators) =
      chunk.getLength transliterators none - 1 := by
  have hresult := CharChunk.withoutFirst_result heven
  rw [CharChunk.withoutFirst] at hresult ⊢
  split at hresult
  · rename_i hshort
    rw [if_pos hshort, lengthOf_nil]
    omega
  · rename_i hlong
    rw [List.flatMap_singleton] at hresult
    rw [if_neg hlong, lengthOf_cons, lengthOf_nil, Nat.add_zero, CharChunk.getLength_eq, hresult,
      charsLen_utf8Drop]
    rfl

theorem deleteAtLoop_boundary {invisible : List CharChunk}
    (hchunks : composition.chunks = left ++ (invisible ++ chunk :: after))
    (hlast : ∀ last ∈ left.getLast?, 0 < last.getLength transliterators none)
    (hinvisible : ∀ c ∈ invisible, c.getLength transliterators none = 0)
    (hchunk : 0 < chunk.getLength transliterators none) (heven : chunk.CutsEvenly transliterators 1)
    (hsize : composition.getLength transliterators = originalSize) :
    deleteAtLoop transliterators originalSize (lengthOf transliterators none left)
        (invisible.length + 2) newPosition composition =
      some (lengthOf transliterators none left, { composition with
        chunks := left ++ (chunk.withoutFirst transliterators ++ after) }) := by
  have hne : composition.chunks ≠ [] := by
    rw [hchunks]
    exact List.append_ne_nil_of_right_ne_nil _
      (List.append_ne_nil_of_right_ne_nil _ (List.cons_ne_nil _ _))
  induction invisible generalizing composition newPosition with
  | nil =>
    rw [List.nil_append] at hchunks
    have hsplit := maybeSplitChunkAt_of_boundary hchunks hlast
    rw [List.length_nil, deleteAtLoop_round hsize hne hsplit]
    apply deleteAtLoop_stop
    rw [getLength, hchunks] at hsize
    rw [getLength, lengthOf_append, lengthOf_append, length_withoutFirst heven]
    rw [lengthOf_append, lengthOf_cons] at hsize
    omega
  | cons z invisible ih =>
    have hz := hinvisible z List.mem_cons_self
    have hgone : z.withoutFirst transliterators = [] := by
      rw [CharChunk.withoutFirst, if_pos (by omega)]
    rw [List.cons_append] at hchunks
    have hsplit := maybeSplitChunkAt_of_boundary hchunks hlast
    rw [List.length_cons, Nat.add_right_comm, deleteAtLoop_round hsize hne hsplit, hgone,
      List.nil_append]
    apply ih rfl (fun c hc => hinvisible c (List.mem_cons_of_mem z hc))
    · rw [getLength, hchunks, lengthOf_append, lengthOf_cons, hz, Nat.zero_add] at hsize
      rw [getLength, lengthOf_append, hsize]
    · exact List.append_ne_nil_of_right_ne_nil _
        (List.append_ne_nil_of_right_ne_nil _ (List.cons_ne_nil _ _))

theorem exists_visible {chunks : List CharChunk} (h : 0 < lengthOf transliterators none chunks) :
    ∃ invisible chunk after, chunks = invisible ++ chunk :: after ∧
      (∀ c ∈ invisible, c.getLength transliterators none = 0) ∧
      0 < chunk.getLength transliterators none := by
  induction chunks with
  | nil => exact absurd h (Nat.lt_irrefl 0)
  | cons c chunks ih =>
    by_cases hc : 0 < c.getLength transliterators none
    · exact ⟨[], c, chunks, rfl, nofun, hc⟩
    · have hzero := Nat.eq_zero_of_not_pos hc
      rw [lengthOf_cons, hzero, Nat.zero_add] at h
      obtain ⟨invisible, chunk, after, rfl, hinvisible, hchunk⟩ := ih h
      refine ⟨c :: invisible, chunk, after, rfl, ?_, hchunk⟩
      intro d hd
      rcases List.mem_cons.mp hd with rfl | hd
      · exact hzero
      · exact hinvisible d hd

end rounds

section delete

variable (transliterators composition position) in
/-- The chunk that holds the character at the position is cut evenly before it and behind it. -/
def CutsEvenlyAt : Prop :=
  ∀ before chunk after inner, composition.chunks = before ++ chunk :: after →
    lengthOf transliterators none before + inner = position →
    inner < chunk.getLength transliterators none →
      chunk.CutsEvenly transliterators inner ∧
        (chunk.behind transliterators inner).CutsEvenly transliterators 1

def textOf (transliterators : Transliterators) (chunks : List CharChunk) : Bytes :=
  chunks.flatMap fun chunk => chunk.result transliterators none

theorem cutsEvenlyAt_of_short
    (h : ∀ chunk ∈ composition.chunks, chunk.getLength transliterators none ≤ 1) :
    composition.CutsEvenlyAt transliterators position := by
  intro before chunk after inner hchunks _ hlt
  have hshort := h chunk (hchunks ▸ List.mem_append_right before List.mem_cons_self)
  obtain rfl : inner = 0 := by omega
  have hnone : ∀ n, n = 0 ∨ chunk.getLength transliterators none ≤ n →
      chunk.CutsEvenly transliterators n := by
    intro n hn left right hsplit
    rw [CharChunk.splitChunk, if_pos hn] at hsplit
    cases hsplit
  rw [CharChunk.behind_zero]
  exact ⟨hnone 0 (.inl rfl), hnone 1 (.inr hshort)⟩

@[simp] theorem textOf_nil : textOf transliterators [] = [] := rfl

theorem textOf_cons (c : CharChunk) (chunks : List CharChunk) : textOf transliterators (c :: chunks) =
    c.result transliterators none ++ textOf transliterators chunks := by
  rw [textOf, List.flatMap_cons, textOf]

theorem textOf_append (l r : List CharChunk) : textOf transliterators (l ++ r) =
    textOf transliterators l ++ textOf transliterators r := by
  rw [textOf, List.flatMap_append, textOf, textOf]

theorem textOf_invisible {chunks : List CharChunk}
    (h : ∀ c ∈ chunks, c.getLength transliterators none = 0) : textOf transliterators chunks = [] := by
  rw [textOf, List.flatMap_eq_nil_iff]
  intro c hc
  exact charsLen_eq_zero.mp (h c hc)

theorem lengthOf_invisible {chunks : List CharChunk}
    (h : ∀ c ∈ chunks, c.getLength transliterators none = 0) :
    lengthOf transliterators none chunks = 0 := by
  rw [lengthOf, List.sum_eq_zero]
  intro n hn
  obtain ⟨c, hc, rfl⟩ := List.mem_map.mp hn
  exact h c hc

variable (transliterators composition position) in
/-- `DeleteAt` brings the chunks into a form in which the character at the position is the first of a
chunk, and takes it away. -/
def DeletesAt : Prop :=
  ∃ (fuel : Nat) (left : List CharChunk) (chunk : CharChunk) (after : List CharChunk),
    composition.deleteAt transliterators fuel position = some (position, { composition with
      chunks := left ++ (chunk.withoutFirst transliterators ++ after) }) ∧
    lengthOf transliterators none left = position ∧
    0 < chunk.getLength transliterators none ∧ chunk.CutsEvenly transliterators 1 ∧
    lengthOf transliterators none left + (chunk.getLength transliterators none +
      lengthOf transliterators none after) = composition.getLength transliterators ∧
    textOf transliterators left ++ (chunk.result transliterators none ++
      textOf transliterators after) = composition.getString transliterators ∧
    ((∀ c ∈ composition.chunks, c.Valid transliterators) →
      ∀ c ∈ left ++ chunk :: after, c.Valid transliterators)

theorem deletesAt_boundary (hchunks : composition.chunks = left ++ after)
    (hlast : ∀ last ∈ left.getLast?, 0 < last.getLength transliterators none)
    (hleft : lengthOf transliterators none left = position)
    (hposition : position < composition.getLength transliterators)
    (heven : composition.CutsEvenlyAt transliterators position) :
    composition.DeletesAt transliterators position := by
  have hvisible : 0 < lengthOf transliterators none after := by
    rw [getLength, hchunks, lengthOf_append] at hposition
    omega
  obtain ⟨invisible, chunk, rest, rfl, hinvisible, hchunk⟩ := exists_visible hvisible
  have hzero := lengthOf_invisible hinvisible
  have hcut : chunk.CutsEvenly transliterators 1 := by
    have hboth := heven (left ++ invisible) chunk rest 0 (by rw [hchunks, List.append_assoc])
      (by rw [lengthOf_append, hzero, hleft, Nat.add_zero]) hchunk
    rw [CharChunk.behind_zero] at hboth
    exact hboth.2
  refine ⟨invisible.length + 2, left, chunk, rest, ?_, hleft, hchunk, hcut, ?_, ?_, ?_⟩
  · have hloop := @deleteAtLoop_boundary transliterators composition rest left chunk _ position
      invisible hchunks hlast hinvisible hchunk hcut rfl
    rwa [hleft] at hloop
  · rw [getLength, hchunks, lengthOf_append, lengthOf_append, lengthOf_cons, hzero, Nat.zero_add]
  · rw [getString, ← textOf, hchunks, textOf_append, textOf_append, textOf_cons,
      textOf_invisible hinvisible, List.nil_append]
  · intro hvalid c hc
    apply hvalid c
    rw [hchunks]
    rcases List.mem_append.mp hc with hc | hc
    · exact List.mem_append_left _ hc
    · exact List.mem_append_right _ (List.mem_append_right _ hc)

theorem deletesAt_inside (hchunks : composition.chunks = before ++ chunk :: after) (hinner : 0 < inner)
    (hlt : inner < chunk.getLength transliterators none)
    (hbefore : lengthOf transliterators none before + inner = position)
    (heven : composition.CutsEvenlyAt transliterators position) :
    composition.DeletesAt transliterators position := by
  obtain ⟨hcut, hbehindCut⟩ := heven before chunk after inner hchunks hbefore hlt
  obtain ⟨lhs, rhs, hsplit, hbehind⟩ := CharChunk.exists_splitChunk hinner hlt
  obtain ⟨hlhs, hrhs⟩ := hcut lhs rhs hsplit
  rw [hbehind] at hbehindCut
  have hlhsLength : lhs.getLength transliterators none = inner := by
    rw [CharChunk.getLength_eq, hlhs, charsLen_utf8Take]
    exact Nat.min_eq_left (Nat.le_of_lt hlt)
  have hrhsLength : rhs.getLength transliterators none =
      chunk.getLength transliterators none - inner := by
    rw [CharChunk.getLength_eq, hrhs, charsLen_utf8Drop]
    rfl
  have hleft : lengthOf transliterators none (before ++ [lhs]) = position := by
    rw [lengthOf_append, lengthOf_cons, lengthOf_nil, hlhsLength, Nat.add_zero, hbefore]
  have hpos : 0 < rhs.getLength transliterators none := by omega
  have hmaybe : composition.maybeSplitChunkAt transliterators position =
      (before ++ [lhs], rhs :: after) := by
    rw [← hbefore, maybeSplitChunkAt_of_inside hchunks hinner (Nat.le_of_lt hlt),
      if_neg (Nat.ne_of_lt hlt), hsplit]
  have hne : composition.chunks ≠ [] := by
    rw [hchunks]
    exact List.append_ne_nil_of_right_ne_nil _ (List.cons_ne_nil _ _)
  have htotal : lengthOf transliterators none (before ++ [lhs]) +
      (rhs.getLength transliterators none + lengthOf transliterators none after) =
        composition.getLength transliterators := by
    rw [hleft, getLength, hchunks, lengthOf_append, lengthOf_cons]
    omega
  refine ⟨2, before ++ [lhs], rhs, after, ?_, hleft, hpos, hbehindCut, htotal, ?_, ?_⟩
  · rw [deleteAt, deleteAtLoop_round rfl hne hmaybe, hleft]
    apply deleteAtLoop_stop
    rw [getLength, lengthOf_append none (before ++ [lhs]),
      lengthOf_append none (rhs.withoutFirst transliterators), length_withoutFirst hbehindCut]
    omega
  · rw [getString, ← textOf, hchunks, textOf_append, textOf_append, textOf_cons, textOf_cons, textOf_nil,
      hlhs, hrhs, List.append_nil, List.append_assoc, ← List.append_assoc (utf8Take _ _),
      utf8Take_append_utf8Drop]
  · intro hvalid c hc
    obtain ⟨cs, hcs⟩ := hvalid chunk (hchunks ▸ List.mem_append_right _ List.mem_cons_self)
    rw [hcs, utf8Take_utf8] at hlhs
    rw [hcs, utf8Drop_utf8] at hrhs
    rw [List.append_assoc, List.singleton_append] at hc
    rcases List.mem_append.mp hc with hc | hc
    · exact hvalid c (hchunks ▸ List.mem_append_left _ hc)
    rcases List.mem_cons.mp hc with rfl | hc
    · exact ⟨_, hlhs⟩
    rcases List.mem_cons.mp hc with rfl | hc
    · exact ⟨_, hrhs⟩
    · exact hvalid c (hchunks ▸ List.mem_append_right _ (List.mem_cons_of_mem _ hc))

theorem deletesAt (hposition : position < composition.getLength transliterators)
    (heven : composition.CutsEvenlyAt transliterators position) :
    composition.DeletesAt transliterators position := by
  by_cases hzero : position = 0
  · exact deletesAt_boundary (List.nil_append _).symm nofun hzero.symm hposition heven
  obtain ⟨before, chunk, after, inner, hchunks, hbefore, hinner, hle⟩ :=
    exists_chunk_at (Nat.pos_of_ne_zero hzero) (Nat.le_of_lt hposition)
  by_cases hend : inner = chunk.getLength transliterators none
  · have hsplit : composition.chunks = (before ++ [chunk]) ++ after := by
      rw [hchunks, List.append_assoc, List.singleton_append]
    refine deletesAt_boundary hsplit ?_ ?_ hposition heven
    · intro last hlast
      rw [List.getLast?_concat] at hlast
      obtain rfl := Option.some.inj hlast
      omega
    · rw [lengthOf_append, lengthOf_cons, lengthOf_nil]
      omega
  · exact deletesAt_inside hchunks hinner (Nat.lt_of_le_of_ne hle hend) hbefore heven

/-- `DeleteAt` ends, and exactly the character at the position is gone. -/
theorem deleteAt_erases (hposition : position < composition.getLength transliterators)
    (hvalid : ∀ chunk ∈ composition.chunks, chunk.Valid transliterators)
    (heven : composition.CutsEvenlyAt transliterators position) :
    ∃ fuel newPosition composition',
      composition.deleteAt transliterators fuel position = some (newPosition, composition') ∧
      composition'.getLength transliterators + 1 = composition.getLength transliterators ∧
      ∃ cs, composition.getString transliterators = utf8 cs ∧
        composition'.getString transliterators = utf8 (cs.eraseIdx position) := by
  obtain ⟨fuel, left, chunk, after, hdelete, hleft, hpos, hcut, htotal, htext, hparts⟩ :=
    deletesAt hposition heven
  have hvalidParts := hparts hvalid
  refine ⟨fuel, position, _, hdelete, ?_, ?_⟩
  · rw [getLength, lengthOf_append, lengthOf_append, length_withoutFirst hcut]
    omega
  obtain ⟨as, has, hasLength⟩ := @flatMap_utf8 (fun c => c.result transliterators none) _
    fun c hc => hvalidParts c (List.mem_append_left _ hc)
  obtain ⟨bs, hbs⟩ := hvalidParts chunk (List.mem_append_right _ List.mem_cons_self)
  obtain ⟨ds, hds, -⟩ := @flatMap_utf8 (fun c => c.result transliterators none) _
    fun c hc => hvalidParts c (List.mem_append_right _ (List.mem_cons_of_mem _ hc))
  have hlength : as.length = position := hasLength.trans hleft
  refine ⟨as ++ (bs ++ ds), ?_, ?_⟩
  · rw [← htext, textOf, has, hbs, textOf, hds, utf8_append, utf8_append]
  · have hbsPos : 0 < bs.length := by rwa [CharChunk.getLength_eq, hbs, charsLen_utf8] at hpos
    obtain ⟨b, bs, rfl⟩ := List.exists_cons_of_length_pos hbsPos
    rw [List.eraseIdx_append_of_length_le (Nat.le_of_eq hlength), hlength, Nat.sub_self,
      List.cons_append, List.eraseIdx_cons_zero, utf8_append, utf8_append]
    rw [getString, List.flatMap_append, List.flatMap_append, has, hds,
      CharChunk.withoutFirst_result hcut, hbs, utf8Drop_utf8]
    rfl

end delete

section bounds

variable {fuel newPosition originalSize : Nat} {composition' : Composition}

theorem deleteAtLoop_mono {fuel' : Nat} {r : Nat × Composition} (hle : fuel ≤ fuel')
    (h : deleteAtLoop transliterators originalSize position fuel newPosition composition = some r) :
    deleteAtLoop transliterators originalSize position fuel' newPosition composition = some r := by
  induction fuel generalizing fuel' newPosition composition with
  | zero => cases h
  | succ fuel ih =>
    obtain ⟨fuel', rfl⟩ : ∃ n, fuel' = n + 1 := ⟨fuel' - 1, by omega⟩
    rw [deleteAtLoop] at h ⊢
    by_cases hstop : composition.chunks = [] ∨ composition.getLength transliterators ≠ originalSize
    · rwa [if_pos hstop] at h ⊢
    rw [if_neg hstop] at h ⊢
    generalize composition.maybeSplitChunkAt transliterators position = parts at h ⊢
    obtain ⟨left, _ | ⟨chunk, right⟩⟩ := parts
    · exact h
    · dsimp only at h ⊢
      by_cases hshort : chunk.getLength transliterators none ≤ 1
      · rw [if_pos hshort] at h ⊢
        exact ih (by omega) h
      · rw [if_neg hshort] at h ⊢
        exact ih (by omega) h

theorem getLength_deleteAt (hposition : position < composition.getLength transliterators)
    (heven : composition.CutsEvenlyAt transliterators position)
    (h : composition.deleteAt transliterators fuel position = some (newPosition, composition')) :
    composition'.getLength transliterators + 1 = composition.getLength transliterators := by
  obtain ⟨fuel', left, chunk, after, hdelete, -, hpos, hcut, htotal, -⟩ := deletesAt hposition heven
  have hsame := deleteAtLoop_mono (Nat.le_max_left fuel fuel') h
  rw [deleteAtLoop_mono (Nat.le_max_right fuel fuel') hdelete] at hsame
  obtain ⟨-, rfl⟩ := Prod.mk.inj (Option.some.inj hsame)
  rw [getLength, lengthOf_append, lengthOf_append, length_withoutFirst hcut]
  omega

theorem deleteAtLoop_le (hle : newPosition ≤ composition.getLength transliterators)
    {last : Nat} (h : deleteAtLoop transliterators originalSize position fuel newPosition composition =
      some (last, composition')) : last ≤ composition'.getLength transliterators := by
  induction fuel generalizing newPosition composition with
  | zero => cases h
  | succ fuel ih =>
    rw [deleteAtLoop] at h
    split at h
    · cases h
      exact hle
    · generalize composition.maybeSplitChunkAt transliterators position = parts at h
      obtain ⟨left, _ | ⟨chunk, right⟩⟩ := parts
      · cases h
        exact Nat.le_refl _
      · dsimp only at h
        split at h
        · apply ih _ h
          rw [getLength, lengthOf_append]
          exact Nat.le_add_right _ _
        · apply ih _ h
          rw [getLength, lengthOf_append]
          exact Nat.le_add_right _ _

theorem getChunkAtLoop_of_length_le {chunks : List CharChunk} (hne : chunks ≠ [])
    (h : lengthOf transliterators none chunks ≤ position) :
    ∃ before chunk after, chunks = before ++ chunk :: after ∧
      lengthOf transliterators none after = 0 ∧
      getChunkAtLoop transliterators none chunks position =
        (before.length, chunk.getLength transliterators none) := by
  induction chunks generalizing position with
  | nil => exact absurd rfl hne
  | cons c chunks ih =>
    rw [lengthOf_cons] at h
    rw [getChunkAtLoop]
    by_cases hhere : position ≤ c.getLength transliterators none
    · refine ⟨[], c, chunks, rfl, by omega, ?_⟩
      rw [if_pos hhere, Nat.le_antisymm hhere (by omega), List.length_nil]
    rw [if_neg hhere]
    by_cases hend : chunks = []
    · exact ⟨[], c, chunks, rfl, by rw [hend, lengthOf_nil], by rw [if_pos hend, List.length_nil]⟩
    · obtain ⟨before, chunk, after, rfl, hafter, hloop⟩ :=
        @ih (position - c.getLength transliterators none) hend (by omega)
      refine ⟨c :: before, chunk, after, rfl, hafter, ?_⟩
      rw [if_neg hend, hloop, List.length_cons]

theorem maybeSplitChunkAt_of_length_le (h : composition.getLength transliterators ≤ position) :
    ∃ left right, composition.maybeSplitChunkAt transliterators position = (left, right) ∧
      composition.chunks = left ++ right ∧ lengthOf transliterators none right = 0 := by
  by_cases hne : composition.chunks = []
  · refine ⟨[], [], ?_, hne, lengthOf_nil none⟩
    rw [maybeSplitChunkAt, getChunkAt, hne]
    rfl
  obtain ⟨before, chunk, after, hchunks, hafter, hloop⟩ := getChunkAtLoop_of_length_le hne h
  have hget : composition.chunks[before.length]? = some chunk := by
    rw [hchunks, List.getElem?_append_right (Nat.le_refl _), Nat.sub_self]
    rfl
  rw [maybeSplitChunkAt, getChunkAt, hloop]
  dsimp only
  rw [hget]
  dsimp only
  by_cases hbegin : before.length = 0 ∧ chunk.getLength transliterators none = 0
  · refine ⟨[], composition.chunks, if_pos hbegin, rfl, ?_⟩
    rw [hchunks, List.length_eq_zero_iff.mp hbegin.1, List.nil_append, lengthOf_cons, hbegin.2, hafter]
  · refine ⟨before ++ [chunk], after, ?_, ?_, hafter⟩
    · rw [if_neg hbegin, if_pos rfl, hchunks, List.take_length_add_append,
        List.drop_length_add_append]
      rfl
    · rw [hchunks, List.append_assoc, List.singleton_append]

theorem deleteAtLoop_of_length_le (hsize : composition.getLength transliterators = originalSize)
    (hle : originalSize ≤ position) {last : Nat}
    (h : deleteAtLoop transliterators originalSize position fuel newPosition composition =
      some (last, composition')) : composition'.getLength transliterators = originalSize := by
  induction fuel generalizing newPosition composition with
  | zero => cases h
  | succ fuel ih =>
    obtain ⟨left, right, hsplit, hchunks, hright⟩ :=
      maybeSplitChunkAt_of_length_le (hsize.symm ▸ hle)
    rw [getLength, hchunks, lengthOf_append, hright, Nat.add_zero] at hsize
    rw [deleteAtLoop, hsplit] at h
    split at h
    · cases h
      rw [getLength, hchunks, lengthOf_append, hright, Nat.add_zero, hsize]
    · cases right with
      | nil =>
        cases h
        exact hsize
      | cons chunk right =>
        rw [lengthOf_cons] at hright
        dsimp only at h
        rw [if_pos (by omega)] at h
        apply ih _ h
        rw [getLength, lengthOf_append, hsize]
        omega

end bounds

section delete

/-- Two characters of one chunk. -/
def kikuComposition : Composition where
  chunks := [{ transliterator := .hiragana, raw := utf8 ['k', 'i', 'k', 'u']
               conversion := utf8 ['き', 'く'] }]

theorem deleteAt_erases_kiku : ∃ fuel newPosition composition',
    kikuComposition.deleteAt plainUtil.transliterators fuel 1 = some (newPosition, composition') ∧
    composition'.getLength plainUtil.transliterators + 1 = 2 ∧
    ∃ cs, kikuComposition.getString plainUtil.transliterators = utf8 cs ∧
      composition'.getString plainUtil.transliterators = utf8 (cs.eraseIdx 1) := by
  refine deleteAt_erases (by decide) ?_ ?_
  · intro chunk hchunk
    rw [List.mem_singleton.mp hchunk]
    exact ⟨['き', 'く'], by decide +kernel⟩
  · intro before chunk after inner hchunks hinner hlt
    obtain rfl : before = [] := by
      cases before with
      | nil => rfl
      | cons c before => exact absurd (List.cons.inj hchunks).2.symm (by simp)
    obtain ⟨rfl, -⟩ := List.cons.inj hchunks
    rw [lengthOf_nil, Nat.zero_add] at hinner
    rw [hinner]
    decide +kernel

/-- With an ambiguous result of three characters for `x` that is displayed, all behind the first goes. -/
theorem not_deleteAt_erases : ¬ ∀ util : JapaneseUtil, ∀ fuel text table,
    loadFromString fuel text = some table →
    ∀ input cursor composition,
      ({} : Composition).insertAt util.transliterators table fuel 0 input = some (cursor, composition) →
      ∀ position, position < composition.getLength util.transliterators →
      ∀ newPosition composition',
        composition.deleteAt util.transliterators fuel position = some (newPosition, composition') →
        composition'.getLength util.transliterators + 1 = composition.getLength util.transliterators := by
  intro h
  have hload : (loadFromString 5 (utf8 ("x\tあいう\t\tDisplayAmbiguousResult\nxy\tえ").toList)).any
      fun table =>
        (({} : Composition).insertAt plainUtil.transliterators table 5 0 (utf8 ['x'])).any fun r =>
          1 < r.2.getLength plainUtil.transliterators &&
            (r.2.deleteAt plainUtil.transliterators 5 1).any fun r' =>
              r'.2.getLength plainUtil.transliterators + 1 ≠
                r.2.getLength plainUtil.transliterators := by
    decide +kernel
  obtain ⟨table, htable, hinsert⟩ := (Option.any_eq_true _ _).mp hload
  obtain ⟨⟨cursor, composition⟩, hr, hrest⟩ := (Option.any_eq_true _ _).mp hinsert
  obtain ⟨hposition, hdelete⟩ := Bool.and_eq_true_iff.mp hrest
  obtain ⟨⟨newPosition, composition'⟩, hr', hne⟩ := (Option.any_eq_true _ _).mp hdelete
  exact of_decide_eq_true hne (h plainUtil 5 _ table htable _ cursor composition hr 1
    (of_decide_eq_true hposition) newPosition composition' hr')

end delete

end Composition

end Mozkey.Composer
