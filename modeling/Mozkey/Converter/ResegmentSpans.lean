import Mozkey.Converter.Resegment

/-! Where a pair of nodes spans the compound node beside which a resegmentation rule inserts it.  The rules
for numbers split the key and the value of the node itself; the rule for names takes the keys of the pair
from other nodes of the lattice. -/

namespace Mozkey.Converter

open Base

/-- A pair of nodes reads and writes what the compound node does: the second follows the first only, and
begins where it ends. -/
structure SpansCompound (l : Lattice) (pos compound first second : Nat) : Prop where
  constrained : (l.node second).constrainedPrev = some first
  begins : first ∈ l.beginNodes pos ∧ (l.node first).beginPos = (l.node compound).beginPos
  adjoins : ∃ mid, first ∈ l.endNodes mid ∧ second ∈ l.beginNodes mid ∧
    (l.node first).endPos = (l.node second).beginPos
  ends : ∃ last, second ∈ l.endNodes last ∧ compound ∈ l.endNodes last ∧
    (l.node second).endPos = (l.node compound).endPos
  keys : (l.node first).key ++ (l.node second).key = (l.node compound).key
  values : (l.node first).value ++ (l.node second).value = (l.node compound).value

/-- The compound nodes for which a rule inserts pairs, in order. -/
def replaced (parts : Node → Option (Node × Node)) (l : Lattice) (pos : Nat) : List Nat :=
  (l.beginNodes pos).filter fun compound => (parts (l.node compound)).isSome

/-- Every pair that a rule allocated after the nodes of `l` spans its compound node in `after`. -/
def PairsSpan (parts : Node → Option (Node × Node)) (l : Lattice) (pos : Nat) (after : Lattice) : Prop :=
  ∀ k compound, (replaced parts l pos)[k]? = some compound →
    SpansCompound after pos compound (l.size + 2 * k) (l.size + 2 * k + 1)

section

variable {parts : Node → Option (Node × Node)} {l : Lattice} {pos : Nat}

theorem getElem?_filterMap_filter {α β : Type} (f : α → Option β) (xs : List α) (k : Nat) :
    (xs.filterMap f)[k]? = (xs.filter fun x => (f x).isSome)[k]?.bind f := by
  induction xs generalizing k with
  | nil => rfl
  | cons x xs ih =>
    cases hx : f x with
    | none => rw [List.filterMap_cons_none hx, ih, List.filter_cons_of_neg (by simp [hx])]
    | some y =>
      rw [List.filterMap_cons_some hx, List.filter_cons_of_pos (by simp [hx])]
      cases k with
      | zero => simp [hx]
      | succ k => simpa using ih k

theorem resegment_paired (parts : Node → Option (Node × Node)) (pos : Nat) (l : Lattice) :
    ∃ inserter, ScopedLatticeNodeInserter.Paired l pos
        ((l.beginNodes pos).filterMap fun v => parts (l.node v)) inserter ∧
      resegment parts pos l = (inserter.isInserted, inserter.destruct) := by
  refine ⟨_, ScopedLatticeNodeInserter.paired_foldl l pos _, ?_⟩
  rw [List.foldl_filterMap, resegment]
  congr
  all_goals
    funext inserter v
    cases parts (l.node v) <;> rfl

/-- The pairs are all that a rule allocates. -/
theorem resegment_size : (resegment parts pos l).2.size = l.size + 2 * (replaced parts l pos).length := by
  obtain ⟨inserter, hpaired, heq⟩ := resegment_paired parts pos l
  have hlength : ((l.beginNodes pos).filterMap fun v => parts (l.node v)).length =
      (replaced parts l pos).length := by
    rw [replaced, List.length_filterMap_eq_countP, List.countP_eq_length_filter]
  rw [heq]
  change (Lattice.insertAll _ _).size = _
  rw [Lattice.insertAll_size, hpaired.size, hlength]

theorem spansCompound_iff {k compound : Nat} {pair : Node × Node} (hl : l.Placed)
    (hk : (replaced parts l pos)[k]? = some compound) (hpair : parts (l.node compound) = some pair)
    (hkey : (l.node compound).key ≠ []) :
    SpansCompound (resegment parts pos l).2 pos compound (l.size + 2 * k) (l.size + 2 * k + 1) ↔
      pos + pair.1.key.length ≤ l.key.length ∧ pair.1.key ++ pair.2.key = (l.node compound).key ∧
        pair.1.value ++ pair.2.value = (l.node compound).value := by
  obtain ⟨inserter, hpaired, heq⟩ := resegment_paired parts pos l
  have hpairs : ((l.beginNodes pos).filterMap fun v => parts (l.node v))[k]? = some pair := by
    rw [getElem?_filterMap_filter, show (l.beginNodes pos).filter _ = replaced parts l pos by rfl, hk]
    exact hpair
  have hmem : compound ∈ l.beginNodes pos :=
    (List.mem_filter.mp (List.mem_of_getElem? hk)).1
  have hlt := hl.lt_size pos compound hmem
  rw [heq]
  change SpansCompound (Lattice.insertAll inserter.inserted inserter.lattice) _ _ _ _ ↔ _
  generalize hafter : Lattice.insertAll inserter.inserted inserter.lattice = after
  -- The nodes before the insertion at the positions that the inserter has collected.
  have hfirst := hpaired.first k pair hpairs
  have hsecond := hpaired.second k pair hpairs
  have hsameFirst : Lattice.SameWord (after.node (l.size + 2 * k)) pair.1 := by
    rw [← hafter, ← hfirst]
    exact Lattice.insertAll_sameWord _
  have hsameSecond : Lattice.SameWord (after.node (l.size + 2 * k + 1))
      { pair.2 with constrainedPrev := some (l.size + 2 * k) } := by
    rw [← hafter, ← hsecond]
    exact Lattice.insertAll_sameWord _
  have honlyFirst : ∀ p, (p, l.size + 2 * k) ∈ inserter.inserted → p = pos := by
    intro p hp
    obtain ⟨k', pair', -, ⟨rfl, -⟩ | ⟨-, h⟩⟩ := (hpaired.inserted p _).mp hp
    · rfl
    · omega
  have honlySecond : ∀ p, (p, l.size + 2 * k + 1) ∈ inserter.inserted →
      p = pos + pair.1.key.length := by
    intro p hp
    obtain ⟨k', pair', hpair', ⟨-, h⟩ | ⟨rfl, h⟩⟩ := (hpaired.inserted p _).mp hp
    · omega
    · obtain rfl : k' = k := by omega
      rw [hpairs] at hpair'
      cases hpair'
      rfl
  have hinFirst : (pos, l.size + 2 * k) ∈ inserter.inserted :=
    (hpaired.inserted _ _).mpr ⟨k, pair, hpairs, Or.inl ⟨rfl, rfl⟩⟩
  have hinSecond : (pos + pair.1.key.length, l.size + 2 * k + 1) ∈ inserter.inserted :=
    (hpaired.inserted _ _).mpr ⟨k, pair, hpairs, Or.inr ⟨rfl, rfl⟩⟩
  have hposFirst := Lattice.insertAll_positions (l := inserter.lattice) hinFirst honlyFirst
  have hposSecond := Lattice.insertAll_positions (l := inserter.lattice) hinSecond honlySecond
  have hcompound : after.node compound = l.node compound := by
    rw [← hafter, Lattice.insertAll_node_of_not_mem, hpaired.old compound hlt]
    intro p hp
    obtain ⟨k', pair', -, ⟨-, h⟩ | ⟨-, h⟩⟩ := (hpaired.inserted p _).mp hp
    · omega
    · omega
  have hendFirst : inserter.lattice.insertEnd pos (inserter.lattice.node (l.size + 2 * k)) =
      min (pos + pair.1.key.length) l.key.length := by
    rw [Lattice.insertEnd, hfirst, hpaired.key, Nat.add_comm]
  have hendSecond : inserter.lattice.insertEnd (pos + pair.1.key.length)
      (inserter.lattice.node (l.size + 2 * k + 1)) =
      min (pos + pair.1.key.length + pair.2.key.length) l.key.length := by
    rw [Lattice.insertEnd, hsecond, hpaired.key, Nat.add_comm]
  have hendCompound : l.insertEnd pos (l.node compound) =
      min (pos + (l.node compound).key.length) l.key.length := by
    rw [Lattice.insertEnd, Nat.add_comm]
  rw [hafter, hendFirst] at hposFirst
  rw [hafter, hendSecond] at hposSecond
  have hendsFirst : ∀ e, l.size + 2 * k ∈ after.endNodes e ↔
      e = min (pos + pair.1.key.length) l.key.length := by
    intro e
    rw [← hafter, Lattice.mem_insertAll_endNodes, hpaired.endNodes, ← hendFirst]
    constructor
    · rintro (h | ⟨p, hp, rfl⟩)
      · have := hl.end_lt_size e _ h
        omega
      · rw [honlyFirst p hp]
    · rintro rfl
      exact Or.inr ⟨pos, hinFirst, rfl⟩
  have hbeginsSecond : ∀ e, l.size + 2 * k + 1 ∈ after.beginNodes e ↔ e = pos + pair.1.key.length := by
    intro e
    rw [← hafter, Lattice.mem_insertAll_beginNodes, hpaired.beginNodes]
    constructor
    · rintro (h | h)
      · have := hl.lt_size e _ h
        omega
      · exact honlySecond e h
    · rintro rfl
      exact Or.inr hinSecond
  constructor
  · intro h
    obtain ⟨mid, hend, hbegin, -⟩ := h.adjoins
    rw [hendsFirst] at hend
    rw [hbeginsSecond] at hbegin
    refine ⟨by omega, ?_, ?_⟩
    · rw [← hsameFirst.key, ← hcompound, ← h.keys, hsameSecond.key]
    · rw [← hsameFirst.value, ← hcompound, ← h.values, hsameSecond.value]
  · rintro ⟨hfits, hkeys, hvalues⟩
    have hlengths : pair.1.key.length + pair.2.key.length = (l.node compound).key.length := by
      rw [← hkeys, List.length_append]
    refine ⟨hsameSecond.constrainedPrev, ⟨?_, ?_⟩, ⟨pos + pair.1.key.length, ?_, ?_, ?_⟩,
      ⟨min (pos + (l.node compound).key.length) l.key.length, ?_, ?_, ?_⟩, ?_, ?_⟩
    · rw [← hafter, Lattice.mem_insertAll_beginNodes]
      exact Or.inr hinFirst
    · rw [hposFirst.1, hcompound, hl.begins pos compound hmem]
    · rw [hendsFirst, min_eq_left hfits]
    · rw [hbeginsSecond]
    · rw [hposFirst.2, hposSecond.1, min_eq_left hfits]
    · rw [← hafter, Lattice.mem_insertAll_endNodes]
      refine Or.inr ⟨_, hinSecond, ?_⟩
      rw [hendSecond, Nat.add_assoc, hlengths]
    · rw [← hafter, Lattice.mem_insertAll_endNodes, hpaired.endNodes, ← hendCompound]
      exact Or.inl (hl.mem_endNodes pos compound hmem hkey)
    · rw [hposSecond.2, hcompound, hl.ends pos compound hmem, hendCompound, Nat.add_assoc, hlengths]
    · rw [hsameFirst.key, hsameSecond.key, hcompound]
      exact hkeys
    · rw [hsameFirst.value, hsameSecond.value, hcompound]
      exact hvalues

theorem pairsSpan_iff (hl : l.Placed) (hkey : ∀ n pair, parts n = some pair → n.key ≠ []) :
    PairsSpan parts l pos (resegment parts pos l).2 ↔
      ∀ compound ∈ l.beginNodes pos, ∀ pair, parts (l.node compound) = some pair →
        pos + pair.1.key.length ≤ l.key.length ∧ pair.1.key ++ pair.2.key = (l.node compound).key ∧
          pair.1.value ++ pair.2.value = (l.node compound).value := by
  constructor
  · intro h compound hmem pair hpair
    have hreplaced : compound ∈ replaced parts l pos :=
      List.mem_filter.mpr ⟨hmem, by rw [hpair]; rfl⟩
    obtain ⟨k, hk⟩ := List.getElem?_of_mem hreplaced
    exact (spansCompound_iff hl hk hpair (hkey _ pair hpair)).mp (h k compound hk)
  · intro h k compound hk
    obtain ⟨hmem, hsome⟩ := List.mem_filter.mp (List.mem_of_getElem? hk)
    obtain ⟨pair, hpair⟩ := Option.isSome_iff_exists.mp hsome
    exact (spansCompound_iff hl hk hpair (hkey _ pair hpair)).mpr (h compound hmem pair hpair)

end

theorem decomposeNumberAndSuffix_append (s : Bytes) :
    (decomposeNumberAndSuffix s).1 ++ (decomposeNumberAndSuffix s).2 = s := by
  obtain ⟨t, ht⟩ := List.dropWhile_suffix isNumberByte (l := s)
  rw [decomposeNumberAndSuffix]
  generalize s.dropWhile isNumberByte = suffix at ht
  subst ht
  simp

theorem decomposePrefixAndNumber_append (s : Bytes) :
    (decomposePrefixAndNumber s).1 ++ (decomposePrefixAndNumber s).2 = s := by
  obtain ⟨t, ht⟩ := List.rdropWhile_prefix isNumberByte (l := s)
  rw [decomposePrefixAndNumber]
  generalize s.rdropWhile isNumberByte = pre at ht
  subst ht
  simp

theorem numberAndSuffix_eq_some {modules : ResegmentModules} {n : Node} {pair : Node × Node}
    (h : numberAndSuffix modules n = some pair) :
    n.key ≠ [] ∧ pair.1.key = (decomposeNumberAndSuffix n.key).1 ∧ pair.1.key ++ pair.2.key = n.key ∧
      pair.1.value ++ pair.2.value = n.value := by
  rw [numberAndSuffix] at h
  by_cases hguard : n.value ≠ [] ∧ n.key ≠ [] ∧ modules.isNumber n.lid ∧ ¬modules.isNumber n.rid ∧
      n.value.head?.any isNumberByte ∧ n.key.head?.any isNumberByte
  · rw [if_pos hguard] at h
    dsimp only at h
    split_ifs at h
    cases h
    exact ⟨hguard.2.1, rfl, decomposeNumberAndSuffix_append _, decomposeNumberAndSuffix_append _⟩
  · rw [if_neg hguard] at h
    cases h

theorem prefixAndNumber_eq_some {n : Node} {pair : Node × Node} (h : prefixAndNumber n = some pair) :
    n.key ≠ [] ∧ pair.1.key = (decomposePrefixAndNumber n.key).1 ∧ pair.1.key ++ pair.2.key = n.key ∧
      pair.1.value ++ pair.2.value = n.value := by
  rw [prefixAndNumber] at h
  by_cases hguard : n.value.length > 1 ∧ n.key.length > 1 ∧ ¬n.value.head?.any isNumberByte ∧
      ¬n.key.head?.any isNumberByte ∧ n.value.getLast?.any isNumberByte ∧
      n.key.getLast?.any isNumberByte
  · rw [if_pos hguard] at h
    dsimp only at h
    split_ifs at h
    cases h
    refine ⟨?_, rfl, decomposePrefixAndNumber_append _, decomposePrefixAndNumber_append _⟩
    exact List.length_pos_iff.mp (by omega)
  · rw [if_neg hguard] at h
    cases h

theorem foldl_least {α : Type} (ok : α → Bool) (cost : α → Int) (bound : Int) (xs : List α) :
    xs.foldl (fun best x => if ok x then if cost x < best.2 then (some x, cost x) else best else best)
        ((none : Option α), bound) =
      match (xs.filter fun x => ok x && decide (cost x < bound)).argmin cost with
      | none => (none, bound)
      | some x => (some x, cost x) := by
  induction xs using List.reverseRecOn with
  | nil => rfl
  | append_singleton xs x ih =>
    rw [List.foldl_append, ih, List.filter_append, List.foldl_cons, List.foldl_nil]
    by_cases hok : ok x = true
    · by_cases hbound : cost x < bound
      · rw [List.filter_cons_of_pos (by simp [hok, hbound]), List.filter_nil, List.argmin_concat]
        cases hleast : (xs.filter fun x => ok x && decide (cost x < bound)).argmin cost with
        | none => simp [hok, hbound]
        | some m =>
          by_cases hlt : cost x < cost m
          · simp [hok, hlt]
          · simp [hok, hlt]
      · rw [List.filter_cons_of_neg (by simp [hbound]), List.filter_nil, List.append_nil]
        cases hleast : (xs.filter fun x => ok x && decide (cost x < bound)).argmin cost with
        | none => simp [hok, hbound]
        | some m =>
          have hm := (List.mem_filter.mp (List.argmin_mem hleast)).2
          rw [Bool.and_eq_true, decide_eq_true_eq] at hm
          have hnot : ¬cost x < cost m := by omega
          simp [hok, hnot]
    · rw [List.filter_cons_of_neg (by simp [hok]), List.filter_nil, List.append_nil]
      simp [hok]

section names

variable (modules : ResegmentModules) (l : Lattice) (pos : Nat)

/-- The pairs of a node at a position and a node where its key ends, in the order of the search. -/
def namePairs : List (Nat × Nat) :=
  (l.beginNodes pos).flatMap fun lnode =>
    (l.beginNodes (pos + (l.node lnode).key.length)).map fun rnode => (lnode, rnode)

/-- A pair with a boundary in between whose values are that of the compound node. -/
def isNamePair (compound : Node) (names : Nat × Nat) : Bool :=
  isLastNameOf l compound names.1 && isFirstNameOf modules l compound names.1 names.2

noncomputable def cheapestNames (compound : Node) : Option (Nat × Nat) :=
  ((namePairs l pos).filter fun names =>
    isNamePair modules l compound names && decide (namesCost modules l names < 0x7fffffff)).argmin
    (namesCost modules l)

theorem bestNames_eq (compound : Node) :
    (bestNames modules l pos compound).1 = cheapestNames modules l pos compound := by
  have hfold : bestNames modules l pos compound = (namePairs l pos).foldl (fun best names =>
      if isNamePair modules l compound names then
        if namesCost modules l names < best.2 then (some names, namesCost modules l names) else best
      else best) (none, 0x7fffffff) := by
    rw [bestNames, namePairs, List.foldl_flatMap]
    congr
    funext best lnode
    rw [List.foldl_map]
    by_cases hl : isLastNameOf l compound lnode = true
    · simp only [hl, isNamePair, Bool.true_and, if_true]
    · simp [hl, isNamePair]
  rw [hfold, foldl_least (isNamePair modules l compound) (namesCost modules l), cheapestNames]
  split <;> simp [*]

theorem cheapestNames_spec {compound : Node} {names : Nat × Nat}
    (h : cheapestNames modules l pos compound = some names) :
    names.2 ∈ l.beginNodes (pos + (l.node names.1).key.length) ∧ compound.key ≠ [] ∧
      (l.node names.1).value ++ (l.node names.2).value = compound.value := by
  obtain ⟨hmem, hok⟩ := List.mem_filter.mp (List.argmin_mem h)
  obtain ⟨lnode, -, hr⟩ := List.mem_flatMap.mp hmem
  obtain ⟨rnode, hrnode, rfl⟩ := List.mem_map.mp hr
  simp only [isNamePair, isLastNameOf, isFirstNameOf, Bool.and_eq_true, decide_eq_true_eq,
    beq_iff_eq] at hok
  obtain ⟨⟨⟨⟨-, hlonger⟩, -⟩, ⟨-, hvalues⟩, -⟩, -⟩ := hok
  exact ⟨hrnode, List.length_pos_iff.mp (by omega), hvalues⟩

theorem personalName_eq_some {compound : Node} {pair : Node × Node}
    (h : personalName modules l pos compound = some pair) :
    isPersonalName modules compound ∧ ∃ names, cheapestNames modules l pos compound = some names ∧
      isNamePos modules l compound names ∧ pair.1.key = (l.node names.1).key ∧
      pair.2.key = (l.node names.2).key ∧ pair.1.value = (l.node names.1).value ∧
      pair.2.value = (l.node names.2).value := by
  rw [personalName, bestNames_eq] at h
  by_cases hpersonal : isPersonalName modules compound = true
  · rw [if_pos hpersonal] at h
    cases hnames : cheapestNames modules l pos compound with
    | none =>
      rw [hnames] at h
      cases h
    | some names =>
      rw [hnames] at h
      dsimp only at h
      by_cases hpos : isNamePos modules l compound names = true
      · rw [if_pos hpos] at h
        cases h
        exact ⟨hpersonal, names, rfl, hpos, rfl, rfl, rfl, rfl⟩
      · rw [if_neg hpos] at h
        cases h
  · rw [if_neg hpersonal] at h
    cases h

theorem personalName_isSome {compound : Node} {names : Nat × Nat}
    (hpersonal : isPersonalName modules compound = true)
    (hnames : cheapestNames modules l pos compound = some names)
    (hpos : isNamePos modules l compound names = true) :
    ∃ pair, personalName modules l pos compound = some pair := by
  rw [personalName, bestNames_eq, if_pos hpersonal, hnames]
  exact ⟨_, if_pos hpos⟩

end names

/-- Every pair that a rule inserts spans its compound node if and only if the number of a compound ends
in the key, and the keys of the last and the first name that a compound name is split into are its key. -/
theorem resegment_pairsSpan_iff (modules : ResegmentModules) {l : Lattice} (hl : l.Placed) (pos : Nat) :
    (PairsSpan (numberAndSuffix modules) l pos (resegmentArabicNumberAndSuffix modules pos l).2 ∧
      PairsSpan prefixAndNumber l pos (resegmentPrefixAndArabicNumber pos l).2 ∧
      PairsSpan (personalName modules l pos) l pos (resegmentPersonalName modules pos l).2) ↔
    (∀ compound ∈ l.beginNodes pos, (numberAndSuffix modules (l.node compound)).isSome →
      pos + (decomposeNumberAndSuffix (l.node compound).key).1.length ≤ l.key.length) ∧
    (∀ compound ∈ l.beginNodes pos, (prefixAndNumber (l.node compound)).isSome →
      pos + (decomposePrefixAndNumber (l.node compound).key).1.length ≤ l.key.length) ∧
    ∀ compound ∈ l.beginNodes pos, isPersonalName modules (l.node compound) →
      ∀ names, cheapestNames modules l pos (l.node compound) = some names →
        isNamePos modules l (l.node compound) names →
        (l.node names.1).key ++ (l.node names.2).key = (l.node compound).key := by
  rw [resegmentArabicNumberAndSuffix, resegmentPrefixAndArabicNumber, resegmentPersonalName,
    pairsSpan_iff hl fun n pair h => (numberAndSuffix_eq_some h).1,
    pairsSpan_iff hl fun n pair h => (prefixAndNumber_eq_some h).1,
    pairsSpan_iff hl fun n pair h => by
      obtain ⟨-, names, hnames, -⟩ := personalName_eq_some modules l pos h
      exact (cheapestNames_spec modules l pos hnames).2.1]
  refine and_congr ?_ (and_congr ?_ ?_)
  · refine forall₂_congr fun compound _ => ?_
    constructor
    · intro h hsome
      obtain ⟨pair, hpair⟩ := Option.isSome_iff_exists.mp hsome
      rw [← (numberAndSuffix_eq_some hpair).2.1]
      exact (h pair hpair).1
    · intro h pair hpair
      obtain ⟨-, hkey, hparts⟩ := numberAndSuffix_eq_some hpair
      rw [hkey]
      rw [hkey] at hparts
      exact ⟨h (by rw [hpair]; rfl), hparts⟩
  · refine forall₂_congr fun compound _ => ?_
    constructor
    · intro h hsome
      obtain ⟨pair, hpair⟩ := Option.isSome_iff_exists.mp hsome
      rw [← (prefixAndNumber_eq_some hpair).2.1]
      exact (h pair hpair).1
    · intro h pair hpair
      obtain ⟨-, hkey, hparts⟩ := prefixAndNumber_eq_some hpair
      rw [hkey]
      rw [hkey] at hparts
      exact ⟨h (by rw [hpair]; rfl), hparts⟩
  · refine forall₂_congr fun compound _ => ?_
    constructor
    · intro h hpersonal names hnames hpos
      obtain ⟨pair, hpair⟩ := personalName_isSome modules l pos hpersonal hnames hpos
      obtain ⟨-, names', hnames', -, hfirst, hsecond, -, -⟩ := personalName_eq_some modules l pos hpair
      rw [hnames] at hnames'
      cases hnames'
      rw [← hfirst, ← hsecond]
      exact (h pair hpair).2.1
    · intro h pair hpair
      obtain ⟨hpersonal, names, hnames, hpos, hfirst, hsecond, hfirstValue, hsecondValue⟩ :=
        personalName_eq_some modules l pos hpair
      obtain ⟨hrnode, -, hvalues⟩ := cheapestNames_spec modules l pos hnames
      rw [hfirst, hsecond, hfirstValue, hsecondValue]
      exact ⟨hl.le_length _ _ hrnode, h hpersonal names hnames hpos, hvalues⟩

section satoAi

/-- A connector without costs, a boundary between all nodes, and the ids of the two kinds of names. -/
def nameModules : ResegmentModules where
  connector := ⟨3, by decide, fun _ _ => 0⟩
  isNumber _ := false
  isBoundary _ _ _ := true
  firstNameId := 2
  lastNameId := 1

/-- "さとうあい" with "佐藤愛" for all of it, "佐藤" for its first three letters, and "愛" for the letters
after them that `reading` says. -/
def satoAi (reading : Bytes) : Lattice :=
  Lattice.fill
    [0xe3, 0x81, 0x95, 0xe3, 0x81, 0xa8, 0xe3, 0x81, 0x86, 0xe3, 0x81, 0x82, 0xe3, 0x81, 0x84] 0
    [(0, { key := [0xe3, 0x81, 0x95, 0xe3, 0x81, 0xa8, 0xe3, 0x81, 0x86, 0xe3, 0x81, 0x82, 0xe3,
             0x81, 0x84],
           value := [0xe4, 0xbd, 0x90, 0xe8, 0x97, 0xa4, 0xe6, 0x84, 0x9b],
           lid := 1, rid := 2, wcost := 6000 }),
     (0, { key := [0xe3, 0x81, 0x95, 0xe3, 0x81, 0xa8, 0xe3, 0x81, 0x86],
           value := [0xe4, 0xbd, 0x90, 0xe8, 0x97, 0xa4], lid := 1, rid := 1, wcost := 3000 }),
     (9, { key := reading, value := [0xe6, 0x84, 0x9b], lid := 2, rid := 2, wcost := 3000 })]

theorem placed_satoAi (reading : Bytes) : (satoAi reading).Placed := by
  refine Lattice.placed_fill fun p hp => ?_
  simp only [List.mem_cons, List.not_mem_nil, or_false] at hp
  rcases hp with rfl | rfl | rfl <;> simp

/-- With "愛" for both letters after "佐藤" the pair spans the compound. -/
theorem resegment_pairsSpan_ai :
    PairsSpan (personalName nameModules (satoAi [0xe3, 0x81, 0x82, 0xe3, 0x81, 0x84]) 0)
      (satoAi [0xe3, 0x81, 0x82, 0xe3, 0x81, 0x84]) 0
      (resegmentPersonalName nameModules 0 (satoAi [0xe3, 0x81, 0x82, 0xe3, 0x81, 0x84])).2 := by
  refine ((resegment_pairsSpan_iff nameModules (placed_satoAi _) 0).mpr ⟨?_, ?_, ?_⟩).2.2
  · decide
  · decide
  · intro compound hmem hpersonal names hnames _
    rw [← bestNames_eq] at hnames
    have hlist : (satoAi [0xe3, 0x81, 0x82, 0xe3, 0x81, 0x84]).beginNodes 0 = [2, 3] := by decide
    rw [hlist, List.mem_cons, List.mem_singleton] at hmem
    rcases hmem with rfl | rfl
    · have hbest : (bestNames nameModules (satoAi [0xe3, 0x81, 0x82, 0xe3, 0x81, 0x84]) 0
          ((satoAi [0xe3, 0x81, 0x82, 0xe3, 0x81, 0x84]).node 2)).1 = some (3, 4) := by decide
      rw [hbest] at hnames
      cases hnames
      decide
    · exact absurd hpersonal (by decide)

/-- With "愛" for the first of them only, it leaves a letter out. -/
theorem not_resegment_pairsSpan :
    ¬PairsSpan (personalName nameModules (satoAi [0xe3, 0x81, 0x82]) 0) (satoAi [0xe3, 0x81, 0x82]) 0
      (resegmentPersonalName nameModules 0 (satoAi [0xe3, 0x81, 0x82])).2 := by
  intro h
  have hkey : ∀ n pair, personalName nameModules (satoAi [0xe3, 0x81, 0x82]) 0 n = some pair →
      n.key ≠ [] := by
    intro n pair hpair
    obtain ⟨-, names, hnames, -⟩ := personalName_eq_some _ _ _ hpair
    exact (cheapestNames_spec _ _ _ hnames).2.1
  have hspans := (pairsSpan_iff (placed_satoAi _) hkey).mp h 2 (by decide) _ rfl
  exact absurd hspans.2.1 (by decide)

end satoAi

end Mozkey.Converter
