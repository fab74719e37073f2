import Mozkey.Base.Container.TrieCorrect
import Mozkey.Composer.CharChunk
import Mozkey.Lib.Runs

/-! How far `LookUpPrefix` gets in the pending text of a chunk, and that `AddInputInternal` takes its
substrings within bounds as long as it gets to the end. -/

namespace Mozkey.Composer

open Storage Base Session Lib

namespace Table

variable {table : Table} {cs ds : List Char} {text : Bytes}

def foldChar (table : Table) (c : Char) : Char := if table.caseSensitive then c else lowerChar c

theorem normalized_utf8 (table : Table) (cs : List Char) :
    table.normalized (utf8 cs) = utf8 (cs.map table.foldChar) := by
  rw [normalized]
  split
  · rename_i h
    have hid : table.foldChar = id := funext fun c => if_pos h
    rw [hid, List.map_id]
  · rename_i h
    have hlower : table.foldChar = lowerChar := funext fun c => if_neg h
    rw [lowerString_utf8, hlower]

theorem length_fold (table : Table) (cs : List Char) :
    (utf8 (cs.map table.foldChar)).length = (utf8 cs).length := by
  rw [← normalized_utf8, normalized]
  split
  · rfl
  · rw [lowerString_utf8, length_utf8_lower]

/-- Wherever the input of a rule ends within the text, the input of some rule goes on with the next
character of the text. -/
def Open (table : Table) (text : Bytes) : Prop :=
  ∃ cs, text = utf8 cs ∧ ∀ q c r, cs.map table.foldChar = q ++ c :: r →
    (table.entries.get q).isSome → (table.entries.descend (q ++ [c])).isSome

def PendingOpen (table : Table) : Prop :=
  ∀ key entry, table.entries.get key = some entry → table.Open entry.pending

theorem lookUpPrefix_utf8 (table : Table) (cs : List Char) : ∃ n u,
    table.entries.descend ((cs.take n).map table.foldChar) = some u ∧
    (∀ c r, (cs.drop n).map table.foldChar = c :: r → u.find c.toNat = none) ∧
    (table.lookUpPrefix (utf8 cs)).1 = u.data ∧
    (table.lookUpPrefix (utf8 cs)).2.1 = (utf8 (cs.take n)).length := by
  obtain ⟨q, r, u, hsplit, hdescend, hstop, hlook⟩ :=
    table.entries.lookUpPrefix_spec (cs.map table.foldChar)
  have hq : (cs.take q.length).map table.foldChar = q := by
    rw [List.map_take, hsplit, List.take_left]
  have hr : (cs.drop q.length).map table.foldChar = r := by
    rw [List.map_drop, hsplit, List.drop_left]
  refine ⟨q.length, u, ?_, fun c r' h => hstop c r' (hr ▸ h), ?_, ?_⟩
  · rw [hq, hdescend]
  · rw [lookUpPrefix, normalized_utf8, hlook]
  · rw [lookUpPrefix, normalized_utf8, hlook, ← length_fold table (cs.take q.length), hq]

theorem length_utf8_take (n : Nat) (cs : List Char) :
    (utf8 (cs.take n)).length ≤ (utf8 cs).length := by
  have h : utf8 cs = utf8 (cs.take n) ++ utf8 (cs.drop n) := by
    rw [← utf8_append, List.take_append_drop]
  rw [h, List.length_append]
  exact Nat.le_add_right _ _

theorem lookUpPrefix_le (table : Table) (cs : List Char) :
    (table.lookUpPrefix (utf8 cs)).2.1 ≤ (utf8 cs).length := by
  obtain ⟨n, u, -, -, -, hlength⟩ := table.lookUpPrefix_utf8 cs
  rw [hlength]
  exact length_utf8_take n cs

theorem open_of_descend {u : Trie Entry}
    (h : table.entries.descend (cs.map table.foldChar) = some u) : table.Open (utf8 cs) := by
  refine ⟨cs, rfl, fun q c r hsplit _ => ?_⟩
  rw [hsplit, List.append_cons, Trie.descend_append] at h
  obtain ⟨v, hv, -⟩ := Option.bind_eq_some_iff.mp h
  rw [hv]
  rfl

theorem open_nil (table : Table) : table.Open [] :=
  ⟨[], rfl, fun _ _ _ h => absurd h (List.append_ne_nil_of_right_ne_nil _ (List.cons_ne_nil _ _)).symm⟩

theorem open_used (table : Table) (cs : List Char) :
    table.Open ((utf8 cs).take (table.lookUpPrefix (utf8 cs)).2.1) := by
  obtain ⟨n, u, hdescend, -, -, hlength⟩ := table.lookUpPrefix_utf8 cs
  have htake : (utf8 cs).take (utf8 (cs.take n)).length = utf8 (cs.take n) := by
    have hsplit : utf8 cs = utf8 (cs.take n) ++ utf8 (cs.drop n) := by
      rw [← utf8_append, List.take_append_drop]
    rw [hsplit, List.take_left]
  rw [hlength, htake]
  exact open_of_descend hdescend

theorem Open.le_used {entry : Entry} (h : table.Open text)
    (hfound : (table.lookUpPrefix (text ++ utf8 ds)).1 = some entry) :
    text.length ≤ (table.lookUpPrefix (text ++ utf8 ds)).2.1 := by
  obtain ⟨cs, rfl, hopen⟩ := h
  rw [← utf8_append] at hfound ⊢
  obtain ⟨n, u, hdescend, hstop, hdata, hlength⟩ := table.lookUpPrefix_utf8 (cs ++ ds)
  rw [hlength]
  by_contra hlt
  have hn : n < cs.length := by
    by_contra hge
    refine hlt ?_
    rw [List.take_append, List.take_of_length_le (Nat.le_of_not_lt hge), utf8_append,
      List.length_append]
    exact Nat.le_add_right _ _
  have htake : (cs ++ ds).take n = cs.take n := List.take_append_of_le_length (Nat.le_of_lt hn)
  have hdrop : (cs ++ ds).drop n = cs[n] :: (cs.drop (n + 1) ++ ds) := by
    rw [List.drop_append_of_le_length (Nat.le_of_lt hn), List.drop_eq_getElem_cons hn,
      List.cons_append]
  have hsplit : cs.map table.foldChar =
      (cs.take n).map table.foldChar ++ table.foldChar cs[n] :: (cs.drop (n + 1)).map table.foldChar := by
    rw [← List.map_cons, ← List.map_append, ← List.drop_eq_getElem_cons hn, List.take_append_drop]
  have hnext := hopen _ _ _ hsplit (by
    rw [Trie.get_eq_descend, ← htake, hdescend, Option.bind_some, ← hdata, hfound]
    rfl)
  rw [Trie.descend_append, ← htake, hdescend, Option.bind_some, Trie.descend,
    hstop _ _ (by rw [hdrop, List.map_cons])] at hnext
  cases hnext

/-- A text is open exactly if no lookup of it with something behind it finds a shorter key. -/
theorem open_iff (table : Table) (cs : List Char) : table.Open (utf8 cs) ↔
    ∀ ds entry, (table.lookUpPrefix (utf8 cs ++ utf8 ds)).1 = some entry →
      (utf8 cs).length ≤ (table.lookUpPrefix (utf8 cs ++ utf8 ds)).2.1 := by
  refine ⟨fun h ds entry hfound => h.le_used hfound, fun h => ⟨cs, rfl, ?_⟩⟩
  intro q c r hsplit hq
  by_contra hnone
  have hdead : table.entries.descend (q ++ [c]) = none := by
    cases hc : table.entries.descend (q ++ [c]) with
    | none => rfl
    | some v => rw [hc] at hnone; exact absurd rfl hnone
  obtain ⟨n, u, hdescend, hstop, hdata, hlength⟩ := table.lookUpPrefix_utf8 cs
  have hle : n ≤ q.length := by
    by_contra hlt
    rw [List.map_take, hsplit, List.append_cons, List.take_append] at hdescend
    rw [List.take_of_length_le (by rw [List.length_append, List.length_singleton]; omega),
      Trie.descend_append, hdead] at hdescend
    cases hdescend
  have hge : q.length ≤ n := by
    by_contra hlt
    have hlong : n < q.length := Nat.lt_of_not_le hlt
    obtain ⟨d, s, hqs⟩ : ∃ d s, q.drop n = d :: s := by
      cases hdrop : q.drop n with
      | nil => exact absurd (List.drop_eq_nil_iff.mp hdrop) (by omega)
      | cons d s => exact ⟨d, s, rfl⟩
    have hfind := hstop d (s ++ c :: r) (by
      rw [List.map_drop, hsplit, List.drop_append_of_le_length (Nat.le_of_lt hlong), hqs]
      rfl)
    have htake : (cs.take n).map table.foldChar = q.take n := by
      rw [List.map_take, hsplit, List.take_append_of_le_length (Nat.le_of_lt hlong)]
    rw [Trie.get_eq_descend, ← List.take_append_drop n q, Trie.descend_append, ← htake, hdescend,
      Option.bind_some, hqs, Trie.descend, hfind] at hq
    cases hq
  obtain rfl : q.length = n := Nat.le_antisymm hge hle
  have hqtake : (cs.take q.length).map table.foldChar = q := by
    rw [List.map_take, hsplit, List.take_left]
  rw [hqtake] at hdescend
  rw [Trie.get_eq_descend, hdescend, Option.bind_some] at hq
  obtain ⟨entry, hentry⟩ := Option.isSome_iff_exists.mp hq
  have hlong := h [] entry (by rw [show utf8 [] = [] from rfl, List.append_nil, hdata, hentry])
  rw [show utf8 [] = [] from rfl, List.append_nil, hlength, ← length_fold table (cs.take q.length),
    ← length_fold table cs, hqtake, hsplit, utf8_append, List.length_append, utf8_cons,
    List.length_append] at hlong
  have hpos : 0 < (String.utf8EncodeChar c).length :=
    List.length_pos_iff.mpr String.utf8EncodeChar_ne_nil
  omega

end Table

namespace CharChunk

variable {table : Table} {chunk chunk' : CharChunk} {input : Bytes}

theorem useInput_eq {used : Nat} (hle : chunk.pending.length ≤ used)
    (hused : used ≤ (chunk.pending ++ input).length) :
    chunk.useInput used input = some (input.take (used - chunk.pending.length),
      input.drop (used - chunk.pending.length)) := by
  rw [List.length_append] at hused
  rw [useInput, if_neg]
  omega

theorem addInputWithoutEntry_open (hopen : table.Open chunk.pending) {ds : List Char}
    (hinput : input = utf8 ds) :
    ∃ loop rest chunk', addInputWithoutEntry table chunk
      (table.lookUpPrefix (chunk.pending ++ input)).2.1 input = some ((loop, rest), chunk') ∧
      table.Open chunk'.pending := by
  obtain ⟨cs, hpending, -⟩ := id hopen
  have hle : (table.lookUpPrefix (chunk.pending ++ input)).2.1 ≤ (chunk.pending ++ input).length := by
    rw [hpending, hinput, ← utf8_append]
    exact table.lookUpPrefix_le _
  have hused : table.Open
      ((chunk.pending ++ input).take (table.lookUpPrefix (chunk.pending ++ input)).2.1) := by
    rw [hpending, hinput, ← utf8_append]
    exact table.open_used _
  generalize (table.lookUpPrefix (chunk.pending ++ input)).2.1 = used at hle hused
  rw [addInputWithoutEntry]
  split
  · exact ⟨_, _, _, rfl, table.open_nil⟩
  split
  · dsimp only
    split
    · exact ⟨_, _, _, rfl, hopen⟩
    split
    · exact ⟨_, _, _, rfl, hopen⟩
    · exact ⟨_, _, _, rfl, hopen⟩
  split
  · dsimp only
    split
    · exact ⟨_, _, _, rfl, hopen⟩
    · exact ⟨_, _, _, rfl, hopen⟩
  split
  · exact ⟨_, _, _, rfl, hopen⟩
  · rename_i hlong
    have hge : chunk.pending.length ≤ used := by omega
    rw [useInput_eq hge hle]
    refine ⟨_, _, _, rfl, ?_⟩
    rwa [List.take_append, List.take_of_length_le hge] at hused

theorem setResult_pending (chunk : CharChunk) (entry : Entry) (key : Bytes) (resolved : Bool) :
    (chunk.setResult entry key resolved).pending = if resolved then entry.pending else key := by
  rw [setResult]
  split
  · rfl
  · dsimp only
    split <;> rfl

theorem addInputWithEntry_open {entry : Entry} {used : Nat} {fixed : Bool}
    (hle : chunk.pending.length ≤ used) (hused : used ≤ (chunk.pending ++ input).length)
    (hentry : table.Open entry.pending) (hkey : table.Open ((chunk.pending ++ input).take used)) :
    ∃ loop rest chunk', chunk.addInputWithEntry entry used fixed input = some ((loop, rest), chunk') ∧
      table.Open chunk'.pending := by
  have hset (c : CharChunk) : table.Open
      (c.setResult entry (chunk.pending ++ input)
        (fixed || used < (chunk.pending ++ input).length)).pending := by
    rw [setResult_pending]
    split
    · exact hentry
    · rename_i hresolved
      have hge : (chunk.pending ++ input).length ≤ used := by simpa using (by simpa using hresolved : _ ∧ _).2
      rwa [List.take_of_length_le hge] at hkey
  rw [addInputWithEntry, useInput_eq hle hused]
  simp only [Option.bind_eq_bind, Option.bind_some]
  generalize hc : CharChunk.setResult _ entry _ _ = c
  have hopen : table.Open c.pending := hc ▸ hset _
  split
  · exact ⟨_, _, _, rfl, hopen⟩
  split
  · exact ⟨_, _, _, rfl, hopen⟩
  · exact ⟨_, _, _, rfl, hopen⟩

theorem addInputInternal_open (hrules : table.PendingOpen) (hopen : table.Open chunk.pending)
    {ds : List Char} (hinput : input = utf8 ds) :
    ∃ loop rest chunk', chunk.addInputInternal table input = some ((loop, rest), chunk') ∧
      table.Open chunk'.pending := by
  obtain ⟨cs, hpending, -⟩ := id hopen
  have hwithout := addInputWithoutEntry_open hopen hinput
  have hkey : chunk.pending ++ input = utf8 (cs ++ ds) := by rw [hpending, hinput, utf8_append]
  have hle : (table.lookUpPrefix (chunk.pending ++ input)).2.1 ≤ (chunk.pending ++ input).length := by
    rw [hkey]
    exact table.lookUpPrefix_le _
  have hused : table.Open
      ((chunk.pending ++ input).take (table.lookUpPrefix (chunk.pending ++ input)).2.1) := by
    rw [hkey]
    exact table.open_used _
  have hlong (entry : Entry) (hfound : (table.lookUpPrefix (chunk.pending ++ input)).1 = some entry) :
      chunk.pending.length ≤ (table.lookUpPrefix (chunk.pending ++ input)).2.1 := by
    rw [hinput] at hfound ⊢
    exact hopen.le_used hfound
  have hentry (entry : Entry) (hfound : (table.lookUpPrefix (chunk.pending ++ input)).1 = some entry) :
      table.Open entry.pending := by
    obtain ⟨n, u, hdescend, -, hdata, -⟩ := table.lookUpPrefix_utf8 (cs ++ ds)
    refine hrules (((cs ++ ds).take n).map table.foldChar) entry ?_
    rw [Trie.get_eq_descend, hdescend, Option.bind_some, ← hdata, ← hkey, hfound]
  rw [addInputInternal]
  rcases hlook : table.lookUpPrefix (chunk.pending ++ input) with ⟨_ | entry, used, fixed⟩ <;>
    rw [hlook] at hwithout hle hused hlong hentry
  · exact hwithout
  · exact addInputWithEntry_open (hlong entry rfl) hle (hentry entry rfl) hused

end CharChunk

/-- What happens to a chunk: `AddInputInternal`, an input with a conversion, the chunk on its left
that is combined with it, a split of which one part is the chunk from then on, and `Clear`. -/
inductive ChunkEvent where
  | addInput (input : Bytes)
  | addConverted (input : CompositionInput)
  | combine (left : CharChunk)
  | split (t12r : Option Transliterator) (position : Nat) (left : Bool)
  | clear

namespace CharChunk

section runs

variable (table : Table) (transliterators : Transliterators)

def step (chunk : CharChunk) : ChunkEvent → Option CharChunk
  | .addInput input => (chunk.addInputInternal table input).map Prod.snd
  | .addConverted input => some (addInputAndConvertedChar table chunk input).2
  | .combine left => some (chunk.combine left)
  | .split t12r position left =>
    (chunk.splitChunk transliterators t12r position).map fun chunks =>
      if left then chunks.1 else chunks.2
  | .clear => some chunk.clear

/-- Typed text is valid UTF-8, and what comes into the pending text from elsewhere is open: a
converted input and the results of rules, the combined text, and the parts of a split. -/
def KeepsOpen (chunk : CharChunk) : ChunkEvent → Prop
  | .addInput input => ∃ cs, input = utf8 cs
  | .addConverted input => table.Open input.conversion ∧
    ∀ key entry, table.entries.get key = some entry → table.Open entry.result
  | .combine left => table.Open (left.pending ++ chunk.pending)
  | .split t12r position left =>
    ∀ chunk', chunk.step table transliterators (.split t12r position left) = some chunk' →
      table.Open chunk'.pending
  | .clear => True

variable {table transliterators} {chunk chunk' : CharChunk}

theorem addConverted_open (hrules : table.PendingOpen) (hopen : table.Open chunk.pending)
    {input : CompositionInput} (hinput : table.Open input.conversion)
    (hresults : ∀ key entry, table.entries.get key = some entry → table.Open entry.result) :
    table.Open (addInputAndConvertedChar table chunk input).2.pending := by
  obtain ⟨cs, hpending, -⟩ := id hopen
  obtain ⟨ds, hconversion, -⟩ := id hinput
  have hrule (entry : Entry)
      (hfound : (table.lookUpPrefix (chunk.pending ++ input.conversion)).1 = some entry) :
      ∃ key, table.entries.get key = some entry := by
    obtain ⟨n, u, hdescend, -, hdata, -⟩ := table.lookUpPrefix_utf8 (cs ++ ds)
    refine ⟨((cs ++ ds).take n).map table.foldChar, ?_⟩
    rw [Trie.get_eq_descend, hdescend, Option.bind_some, ← hdata, utf8_append, ← hpending,
      ← hconversion, hfound]
  rw [addInputAndConvertedChar]
  dsimp only
  split
  · split <;> exact hopen
  split
  · exact hinput
  split
  · exact hopen
  · rename_i entry used fixed hlook
    rw [hlook] at hrule
    obtain ⟨key, hkey⟩ := hrule entry rfl
    split
    · split
      · exact hrules key entry hkey
      · exact hresults key entry hkey
    split
    · exact hopen
    · exact hrules key entry hkey

theorem step_open (hrules : table.PendingOpen) (hopen : table.Open chunk.pending) {event : ChunkEvent}
    (hok : chunk.KeepsOpen table transliterators event)
    (hstep : chunk.step table transliterators event = some chunk') : table.Open chunk'.pending := by
  cases event with
  | addInput input =>
    obtain ⟨ds, hinput⟩ := hok
    obtain ⟨loop, rest, next, hadd, hnext⟩ := addInputInternal_open hrules hopen hinput
    rw [step, hadd] at hstep
    cases hstep
    exact hnext
  | addConverted input =>
    cases hstep
    exact addConverted_open hrules hopen hok.1 hok.2
  | combine left =>
    cases hstep
    exact hok
  | split t12r position left => exact hok chunk' hstep
  | clear =>
    cases hstep
    exact table.open_nil

/-- In every run of a chunk in which the texts that come into its pending text are open, a lookup that
finds an entry has used all of the pending text, and the substrings are within bounds. -/
theorem addInputInternal_in_bounds (hrules : table.PendingOpen)
    {t12r : Transliterator} {events : List ChunkEvent}
    (hrun : Run (step table transliterators) (KeepsOpen table transliterators)
      { transliterator := t12r } events chunk) (ds : List Char) :
    (∀ entry, (table.lookUpPrefix (chunk.pending ++ utf8 ds)).1 = some entry →
      chunk.pending.length ≤ (table.lookUpPrefix (chunk.pending ++ utf8 ds)).2.1) ∧
    (chunk.addInputInternal table (utf8 ds)).isSome := by
  have hopen : table.Open chunk.pending :=
    hrun.inv (p := fun chunk : CharChunk => table.Open chunk.pending) table.open_nil
      fun _ _ _ h hok hstep => step_open hrules h hok hstep
  refine ⟨fun entry hfound => hopen.le_used hfound, ?_⟩
  obtain ⟨loop, rest, next, hadd, -⟩ := addInputInternal_open hrules hopen rfl
  rw [hadd]
  rfl

end runs

section examples

def noTransliterators : Transliterators where
  transliterate _ _ converted := converted
  split _ _ raw converted := (([], raw), ([], converted))

/-- The table of the one rule from `kk` to a result with `k` pending. -/
def doubledTable : Table :=
  { Table.new with
    entries := Trie.empty.addEntry (utf8 ['k', 'k'])
      { input := utf8 ['k', 'k'], result := utf8 ['x'], pending := utf8 ['k'], attributes := 0 } }

theorem doubledTable_get (q : List Char) : doubledTable.entries.get q =
    if q = ['k', 'k'] then
      some { input := utf8 ['k', 'k'], result := utf8 ['x'], pending := utf8 ['k'], attributes := 0 }
    else none :=
  ((Trie.addEntry_spec Trie.wf_empty ['k', 'k'] _).2 q).trans (by rw [Trie.get_empty])

theorem doubledTable_pendingOpen : doubledTable.PendingOpen := by
  intro key entry hentry
  have hpending : entry.pending = utf8 ['k'] := by
    rw [doubledTable_get] at hentry
    split at hentry
    · rw [← Option.some.inj hentry]
    · cases hentry
  rw [hpending]
  refine ⟨['k'], rfl, fun q c r hsplit hq => ?_⟩
  rw [doubledTable_get] at hq
  split at hq
  · rename_i hkk
    have hlength := congrArg List.length hsplit
    rw [hkk, List.length_append, List.length_cons] at hlength
    simp only [List.length_map, List.length_cons, List.length_nil] at hlength
    omega
  · cases hq

theorem addInputInternal_in_bounds_doubled :
    ∃ chunk, Run (step doubledTable noTransliterators) (KeepsOpen doubledTable noTransliterators)
      { transliterator := .hiragana } [.addInput (utf8 ['k', 'k'])] chunk ∧
      chunk.pending = utf8 ['k'] ∧ (chunk.addInputInternal doubledTable (utf8 ['k'])).isSome := by
  have hstep : ∃ chunk, step doubledTable noTransliterators { transliterator := .hiragana }
      (.addInput (utf8 ['k', 'k'])) = some chunk ∧ chunk.pending = utf8 ['k'] :=
    ⟨{ transliterator := .hiragana, raw := utf8 ['k', 'k'], conversion := utf8 ['x'],
       pending := utf8 ['k'] }, by decide +kernel, rfl⟩
  obtain ⟨chunk, hchunk, hpending⟩ := hstep
  have hok : KeepsOpen doubledTable noTransliterators { transliterator := .hiragana }
      (.addInput (utf8 ['k', 'k'])) := ⟨['k', 'k'], rfl⟩
  have hrun := Run.nil.snoc hok hchunk
  exact ⟨chunk, hrun, hpending,
    (addInputInternal_in_bounds doubledTable_pendingOpen hrun ['k']).2⟩

/-- The table has the rules from `b` to `x` and from `a` to nothing with `bc` pending. -/
theorem addInputInternal_throws : ¬ ∀ fuel text table, loadFromString fuel text = some table →
    ∀ transliterators t12r events chunk,
      Run (step table transliterators) (fun _ _ => True) { transliterator := t12r } events chunk →
        ∀ ds, (∀ entry, (table.lookUpPrefix (chunk.pending ++ utf8 ds)).1 = some entry →
          chunk.pending.length ≤ (table.lookUpPrefix (chunk.pending ++ utf8 ds)).2.1) ∧
          (chunk.addInputInternal table (utf8 ds)).isSome := by
  intro h
  have hthrows : (loadFromString 3 (utf8 ['b', '\t', 'x', '\n', 'a', '\t', '\t', 'b', 'c'])).any
      (fun table => (step table noTransliterators { transliterator := .hiragana }
        (.addInput (utf8 ['a']))).any fun chunk =>
          (chunk.addInputInternal table (utf8 ['d'])).isNone) = true := by
    decide +kernel
  obtain ⟨table, hload, hchunk⟩ := (Option.any_eq_true _ _).mp hthrows
  obtain ⟨chunk, hstep, hnone⟩ := (Option.any_eq_true _ _).mp hchunk
  have hsome := (h 3 _ table hload noTransliterators .hiragana _ chunk (Run.nil.snoc trivial hstep)
    ['d']).2
  rw [Option.isNone_iff_eq_none.mp hnone] at hsome
  cases hsome

end examples

end CharChunk

end Mozkey.Composer
