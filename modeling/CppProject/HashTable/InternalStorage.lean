import CppProject.HashTable.Basic
import CppProject.Library.Loop
import CppProject.Library.Placement
import CppProject.Library.PrefixSums
import Mathlib.Tactic.Ring

/-!
# `immutable_hash_table` with internal storage

The table keeps its entries in the vector that it is constructed from and
rearranges them in place.  The placement loop passes over an entry right behind
the filled front of its bucket without advancing that front, so the fronts lag
behind the scan.
-/

namespace CppProject.HashTable.InternalStorage

open Library Library.Checked Library.Placement

structure ImmutableHashTable (K V : Type) where
  table : List (K × V)
  indexes : List Nat
  sizeMask : Nat

section Model

variable {K V : Type} (hash : K → Nat)

/-- The bucket of an entry under a mask. -/
def entryBucket (mask : Nat) (entry : K × V) : Nat := hash entry.1 &&& mask

/-- The loop `++_indexes[h]` over the entries. -/
def countEntries (mask : Nat) : List (K × V) → List Nat → Except Fault (List Nat)
  | [], indexes => .ok indexes
  | kv :: rest, indexes => do
      let h := entryBucket hash mask kv
      let count ← load indexes h
      let indexes ← store indexes h (count + 1)
      countEntries mask rest indexes

/-- The variables of the placement loop. -/
structure PlaceState (K V : Type) where
  table : List (K × V)
  curIndexes : List Nat
  i : Nat

/-- One round of the placement loop. -/
def placeRound (indexes : List Nat) (mask : Nat) (s : PlaceState K V) :
    Except Fault (Option (PlaceState K V)) :=
  if s.i < s.table.length then do
    let entry ← load s.table s.i
    let h := entryBucket hash mask entry
    let curIndex ← load s.curIndexes h
    let startIndex ← load indexes h
    if startIndex ≤ s.i ∧ s.i ≤ curIndex then
      .ok (some { s with i := s.i + 1 })
    else do
      -- `std::swap(entry, _table[cur_index])`
      let other ← load s.table curIndex
      let table ← store s.table s.i other
      let table ← store table curIndex entry
      let curIndexes ← store s.curIndexes h (curIndex + 1)
      .ok (some { s with table := table, curIndexes := curIndexes })
  else .ok none

/-- The constructor. -/
def construct (kvs : List (K × V)) : Except Fault (ImmutableHashTable K V) := do
  let size := nextPower kvs.length
  let mask := size - 1
  let counted ← countEntries hash mask kvs (List.replicate size 0)
  let indexes := prefixSums 0 counted
  -- every round passes over an entry or brings one home
  let fuel := kvs.length * (size + 1) + 1
  let last ← whileLoop (placeRound hash indexes mask) fuel ⟨kvs, indexes, 0⟩
  .ok ⟨last.table, indexes, mask⟩

/-- The position behind the entries of bucket `h`. -/
def bucketEnd (t : ImmutableHashTable K V) (h : Nat) : Except Fault Nat :=
  if h = t.sizeMask then .ok t.table.length else load t.indexes (h + 1)

/-- The scan of `find` over `left` positions from `s` on. -/
def findFrom [DecidableEq K] (t : ImmutableHashTable K V) (key : K) :
    Nat → Nat → Except Fault (Option (K × V))
  | 0, _ => .ok none
  | left + 1, s => do
      let entry ← load t.table s
      if entry.1 = key then .ok (some entry) else findFrom t key left (s + 1)

/-- `find`: the entry that the returned pointer points to, or `nullptr`. -/
def find [DecidableEq K] (t : ImmutableHashTable K V) (key : K) : Except Fault (Option (K × V)) := do
  let h := hash key &&& t.sizeMask
  let s ← load t.indexes h
  let e ← bucketEnd t h
  findFrom t key (e - s) s

end Model

variable {K V : Type} {hash : K → Nat} {mask : Nat} {kvs : List (K × V)}

/-! ## The collision count -/

theorem entryBucket_lt (hash : K → Nat) (mask : Nat) (entry : K × V) :
    entryBucket hash mask entry < mask + 1 :=
  Nat.lt_succ_of_le Nat.and_le_right

theorem countEntries_spec (hash : K → Nat) (kvs : List (K × V)) {indexes : List Nat}
    (room : indexes.length = mask + 1) :
    ∃ counted, countEntries hash mask kvs indexes = .ok counted ∧ counted.length = mask + 1 ∧
      ∀ h, counted.getD h 0 = indexes.getD h 0 + population (entryBucket hash mask) kvs h := by
  induction kvs generalizing indexes with
  | nil => exact ⟨indexes, rfl, room, fun _ => rfl⟩
  | cons kv rest ih =>
      have here : entryBucket hash mask kv < indexes.length := by
        rw [room]
        exact entryBucket_lt hash mask kv
      obtain ⟨counted, run, length, counts⟩ := @ih
        (indexes.set (entryBucket hash mask kv) (indexes[entryBucket hash mask kv] + 1))
        (by rw [List.length_set, room])
      refine ⟨counted, ?_, length, ?_⟩
      · simp only [countEntries, load_of_lt here, store_of_lt here, ok_bind]
        exact run
      · intro h
        rw [counts h, getD_set here]
        simp only [population, List.countP_cons, decide_eq_true_eq]
        rcases eq_or_ne h (entryBucket hash mask kv) with rfl | other
        · rw [if_pos rfl, if_pos rfl, List.getD_eq_getElem?_getD, List.getElem?_eq_getElem here,
            Option.getD_some, Nat.add_right_comm, Nat.add_assoc]
        · rw [if_neg other, if_neg other.symm, Nat.add_zero]

/-! ## The placement loop -/

/-- The homes of the buckets, packed tightly. -/
def homes (hash : K → Nat) (mask : Nat) (kvs : List (K × V)) :
    Layout (entryBucket hash mask) kvs :=
  Layout.widened _ _ (fun _ => 0)

theorem homes_start (hash : K → Nat) (mask : Nat) (kvs : List (K × V)) (h : Nat) :
    (homes hash mask kvs).start h = below (entryBucket hash mask) kvs h := by
  simp [homes, Layout.widened_start]

theorem homes_stop (hash : K → Nat) (mask : Nat) (kvs : List (K × V)) (h : Nat) :
    (homes hash mask kvs).stop h = below (entryBucket hash mask) kvs (h + 1) := by
  simp [homes, Layout.widened_stop]

theorem homes_stop_le (hash : K → Nat) (mask : Nat) (kvs : List (K × V)) (h : Nat) :
    (homes hash mask kvs).stop h ≤ kvs.length := by
  rw [homes_stop]
  exact List.countP_le_length

/-- The constructor's `_indexes`: the starts of the homes. -/
structure Starts (hash : K → Nat) (mask : Nat) (kvs : List (K × V)) (indexes : List Nat) : Prop where
  room : indexes.length = mask + 1
  starts : ∀ h, h < mask + 1 → indexes[h]? = some ((homes hash mask kvs).start h)

/-- The board that a state of the placement loop stands for. -/
def boardOf (layout : Layout (entryBucket hash mask) kvs) (s : PlaceState K V) : Board (K × V) where
  cells := s.table
  fill h := s.curIndexes.getD h (layout.start h)
  scan := s.i

structure Placed (hash : K → Nat) (mask : Nat) (kvs : List (K × V)) (s : PlaceState K V) : Prop where
  room : s.curIndexes.length = mask + 1
  placing : Placing (homes hash mask kvs) (boardOf (homes hash mask kvs) s)

theorem Placed.length_eq {s : PlaceState K V} (placed : Placed hash mask kvs s) :
    s.table.length = kvs.length :=
  placed.placing.perm.length_eq

theorem placed_initial {indexes : List Nat} (ready : Starts hash mask kvs indexes) :
    Placed hash mask kvs ⟨kvs, indexes, 0⟩ := by
  refine ⟨ready.room, ?_⟩
  have fills : boardOf (homes hash mask kvs) ⟨kvs, indexes, 0⟩ =
      ⟨kvs, (homes hash mask kvs).start, 0⟩ := by
    simp only [boardOf, Board.mk.injEq, true_and, and_true]
    funext h
    rw [List.getD_eq_getElem?_getD]
    rcases Nat.lt_or_ge h (mask + 1) with inside | outside
    · rw [ready.starts h inside, Option.getD_some]
    · rw [List.getElem?_eq_none (by rw [ready.room]; exact outside), Option.getD_none]
  rw [fills]
  exact Placing.initial _

/-- One round before the end of the table is one move. -/
theorem placeRound_move {indexes : List Nat} (ready : Starts hash mask kvs indexes)
    {s : PlaceState K V} (placed : Placed hash mask kvs s) (inside : s.i < s.table.length) :
    ∃ next, placeRound hash indexes mask s = .ok (some next) ∧ Placed hash mask kvs next ∧
      Move (homes hash mask kvs) (boardOf (homes hash mask kvs) s)
        (boardOf (homes hash mask kvs) next) := by
  obtain ⟨h, bucket⟩ : ∃ h, entryBucket hash mask s.table[s.i] = h := ⟨_, rfl⟩
  have h_lt : h < mask + 1 := bucket ▸ entryBucket_lt hash mask _
  have room : h < s.curIndexes.length := by
    rw [placed.room]
    exact h_lt
  have here : bucketAt (entryBucket hash mask) (boardOf (homes hash mask kvs) s).cells s.i = some h :=
    (bucketAt_eq_some _).mpr ⟨_, List.getElem?_eq_getElem inside, bucket⟩
  have fill_eq : (boardOf (homes hash mask kvs) s).fill h = s.curIndexes[h] := by
    simp [boardOf, List.getD_eq_getElem?_getD, List.getElem?_eq_getElem room]
  by_cases home : (homes hash mask kvs).start h ≤ s.i ∧ s.i ≤ s.curIndexes[h]
  · have move : Move (homes hash mask kvs) (boardOf (homes hash mask kvs) s)
        (boardOf (homes hash mask kvs) { s with i := s.i + 1 }) :=
      .advance here (fill_eq ▸ home)
    refine ⟨{ s with i := s.i + 1 }, ?_, ⟨placed.room, placed.placing.move move⟩, move⟩
    simp only [placeRound, if_pos inside, load_of_lt inside, ok_bind, bucket, load_of_lt room,
      load_eq_ok.mpr (ready.starts h h_lt), if_pos home]
  · -- an entry behind the lagging front is astray as well
    have astray : ¬((homes hash mask kvs).start h ≤ s.i ∧
        s.i < (boardOf (homes hash mask kvs) s).fill h) := by
      rw [fill_eq]
      exact fun both => home ⟨both.1, Nat.le_of_lt both.2⟩
    have target : s.curIndexes[h] < s.table.length := by
      have free := placed.placing.has_room here astray
      rw [fill_eq] at free
      rw [placed.length_eq]
      exact Nat.lt_of_lt_of_le free (homes_stop_le hash mask kvs h)
    have after : boardOf (homes hash mask kvs)
          ⟨s.table.swap s.i s.curIndexes[h], s.curIndexes.set h (s.curIndexes[h] + 1), s.i⟩ =
        { boardOf (homes hash mask kvs) s with
          cells := s.table.swap s.i s.curIndexes[h]
          fill := Function.update (boardOf (homes hash mask kvs) s).fill h (s.curIndexes[h] + 1) } := by
      simp only [boardOf, Board.mk.injEq, true_and, and_true]
      funext b
      rw [getD_set room, Function.update_apply]
    have move : Move (homes hash mask kvs) (boardOf (homes hash mask kvs) s)
        (boardOf (homes hash mask kvs)
          ⟨s.table.swap s.i s.curIndexes[h], s.curIndexes.set h (s.curIndexes[h] + 1), s.i⟩) := by
      rw [after, ← fill_eq]
      exact .swap here astray (fill_eq ▸ target)
    refine ⟨_, ?_, ⟨(List.length_set).trans placed.room, placed.placing.move move⟩, move⟩
    simp only [placeRound, if_pos inside, load_of_lt inside, ok_bind, bucket, load_of_lt room,
      load_eq_ok.mpr (ready.starts h h_lt), if_neg home, load_of_lt target, store_of_lt inside,
      store_of_lt room, List.swap_eq_of_lt inside target]
    rw [store_of_lt (by rw [List.length_set]; exact target), ok_bind]

/-- The constructor's table: a permutation of the entries, each in its home. -/
structure Arranged (hash : K → Nat) (mask : Nat) (kvs table : List (K × V)) : Prop where
  perm : table.Perm kvs
  home_iff : ∀ i entry, table[i]? = some entry → ∀ h,
    entryBucket hash mask entry = h ↔ (homes hash mask kvs).Home h i

/-- The placement loop ends before its fuel does, with every entry at home. -/
theorem place_spec {indexes : List Nat} (ready : Starts hash mask kvs indexes) {fuel : Nat}
    (enough : kvs.length * (mask + 2) < fuel) :
    ∃ last, whileLoop (placeRound hash indexes mask) fuel ⟨kvs, indexes, 0⟩ = .ok last ∧
      Arranged hash mask kvs last.table := by
  have round : ∀ s, Placed hash mask kvs s →
      placeRound hash indexes mask s = .ok none ∨
        ∃ next, placeRound hash indexes mask s = .ok (some next) ∧ Placed hash mask kvs next ∧
          remaining (homes hash mask kvs) (mask + 1) (boardOf (homes hash mask kvs) next) <
            remaining (homes hash mask kvs) (mask + 1) (boardOf (homes hash mask kvs) s) := by
    intro s placed
    rcases Nat.lt_or_ge s.i s.table.length with inside | done
    · obtain ⟨next, go, after, move⟩ := placeRound_move ready placed inside
      exact Or.inr ⟨next, go, after,
        move_remaining_lt (entryBucket_lt hash mask) placed.placing move⟩
    · exact Or.inl (if_neg (Nat.not_lt.mpr done))
  have small : remaining (homes hash mask kvs) (mask + 1)
      (boardOf (homes hash mask kvs) ⟨kvs, indexes, 0⟩) < fuel := by
    have bound := (placed_initial ready).placing.remaining_le (mask + 1)
    have expand : kvs.length * (mask + 2) = kvs.length + (mask + 1) * kvs.length := by ring
    omega
  obtain ⟨last, run, placed, left⟩ := Loop.leaves round (placed_initial ready) small
  refine ⟨last, run, placed.placing.perm, ?_⟩
  have finished : last.table.length ≤ last.i := by
    by_contra inside
    obtain ⟨next, go, _⟩ := placeRound_move ready placed (Nat.lt_of_not_le inside)
    rw [go] at left
    cases left
  intro i entry found h
  obtain ⟨inside, _⟩ := List.getElem?_eq_some_iff.mp found
  rw [← placed.placing.bucketAt_iff finished inside h, bucketAt_eq_some]
  simp [boardOf, found]

/-! ## The constructed table -/

/-- A table whose entries are arranged and whose `_indexes` are the starts of
the buckets. -/
structure Built (hash : K → Nat) (kvs : List (K × V)) (t : ImmutableHashTable K V) : Prop where
  starts : Starts hash t.sizeMask kvs t.indexes
  arranged : Arranged hash t.sizeMask kvs t.table

/-- The constructor ends without a fault. -/
theorem construct_spec (hash : K → Nat) (kvs : List (K × V)) :
    ∃ t, construct hash kvs = .ok t ∧ Built hash kvs t := by
  obtain ⟨mask, size⟩ : ∃ mask, nextPower kvs.length = mask + 1 :=
    Nat.exists_eq_add_one.mpr (nextPower_pos _)
  obtain ⟨counted, run, length, counts⟩ := countEntries_spec hash kvs
    (show (List.replicate (mask + 1) 0).length = mask + 1 from List.length_replicate)
  have starts : Starts hash mask kvs (prefixSums 0 counted) := by
    refine ⟨(prefixSums_length _ _).trans length, ?_⟩
    intro h inside
    have each : ∀ l ∈ Finset.range h,
        counted.getD l 0 = population (entryBucket hash mask) kvs l := by
      intro l _
      rw [counts l, List.getD_eq_getElem?_getD, List.getElem?_replicate]
      split <;> exact Nat.zero_add _
    rw [getElem?_prefixSums 0 counted (length ▸ inside), Nat.zero_add, Finset.sum_congr rfl each,
      sum_population, homes_start]
  obtain ⟨last, left, arranged⟩ := place_spec starts
    (show kvs.length * (mask + 2) < kvs.length * (mask + 1 + 1) + 1 from Nat.lt_succ_self _)
  refine ⟨⟨last.table, prefixSums 0 counted, mask⟩, ?_, starts, arranged⟩
  simp only [construct, size, Nat.add_sub_cancel, run, ok_bind, left]

variable {t : ImmutableHashTable K V}

theorem Built.bucketEnd_eq (built : Built hash kvs t) {h : Nat} (inside : h < t.sizeMask + 1) :
    bucketEnd t h = .ok ((homes hash t.sizeMask kvs).stop h) := by
  unfold bucketEnd
  split
  next last =>
    have all : below (entryBucket hash t.sizeMask) kvs (h + 1) = kvs.length := by
      rw [last]
      exact below_eq_length _ fun entry _ => entryBucket_lt hash t.sizeMask entry
    rw [homes_stop, all, built.arranged.perm.length_eq]
  next other =>
    have next_inside : h + 1 < t.sizeMask + 1 := by omega
    rw [load_eq_ok.mpr (built.starts.starts (h + 1) next_inside), homes_start, homes_stop]

theorem findFrom_spec [DecidableEq K] (key : K) {left s : Nat} (inside : s + left ≤ t.table.length) :
    (∃ (i : Nat) (entry : K × V), t.table[i]? = some entry ∧ entry.1 = key ∧
        findFrom t key left s = .ok (some entry)) ∨
      ((∀ (i : Nat) (entry : K × V), s ≤ i → i < s + left → t.table[i]? = some entry →
          entry.1 ≠ key) ∧
        findFrom t key left s = .ok none) := by
  induction left generalizing s with
  | zero => exact Or.inr ⟨fun i _ low high => absurd high (Nat.not_lt.mpr low), rfl⟩
  | succ left ih =>
      have s_lt : s < t.table.length := by omega
      have read : findFrom t key (left + 1) s =
          if t.table[s].1 = key then .ok (some t.table[s]) else findFrom t key left (s + 1) := by
        simp only [findFrom, load_of_lt s_lt, ok_bind]
      by_cases found : t.table[s].1 = key
      · left
        exact ⟨s, _, List.getElem?_eq_getElem s_lt, found, read.trans (if_pos found)⟩
      · rw [if_neg found] at read
        rw [read]
        rcases ih (show s + 1 + left ≤ t.table.length by omega) with hit | ⟨miss, none⟩
        · exact Or.inl hit
        · refine Or.inr ⟨?_, none⟩
          rintro i entry low high here
          rcases Nat.eq_or_lt_of_le low with rfl | later
          · rw [List.getElem?_eq_getElem s_lt] at here
            cases here
            exact found
          · exact miss i entry later (by omega) here

/-- `find` scans the home of the key's bucket. -/
theorem Built.find_eq [DecidableEq K] (built : Built hash kvs t) (key : K) :
    find hash t key =
      findFrom t key
        (population (entryBucket hash t.sizeMask) kvs (hash key &&& t.sizeMask))
        ((homes hash t.sizeMask kvs).start (hash key &&& t.sizeMask)) := by
  have h_lt : hash key &&& t.sizeMask < t.sizeMask + 1 := Nat.lt_succ_of_le Nat.and_le_right
  simp only [find, load_eq_ok.mpr (built.starts.starts _ h_lt), built.bucketEnd_eq h_lt, ok_bind,
    Layout.stop, Nat.add_sub_cancel_left]

theorem Built.find_spec [DecidableEq K] (built : Built hash kvs t) (key : K) :
    (∃ entry ∈ kvs, entry.1 = key ∧ find hash t key = .ok (some entry)) ∨
      ((∀ entry ∈ kvs, entry.1 ≠ key) ∧ find hash t key = .ok none) := by
  have inside : (homes hash t.sizeMask kvs).stop (hash key &&& t.sizeMask) ≤ t.table.length := by
    rw [built.arranged.perm.length_eq]
    exact homes_stop_le hash t.sizeMask kvs _
  rw [built.find_eq]
  rcases findFrom_spec key inside with ⟨i, entry, found, same, hit⟩ | ⟨miss, none⟩
  · left
    exact ⟨entry, built.arranged.perm.mem_iff.mp (List.mem_of_getElem? found), same, hit⟩
  · right
    refine ⟨?_, none⟩
    rintro entry member rfl
    obtain ⟨i, found⟩ := List.mem_iff_getElem?.mp (built.arranged.perm.mem_iff.mpr member)
    have home := (built.arranged.home_iff i entry found _).mp rfl
    exact miss i entry home.1 home.2 found rfl

/-- For every vector of pairs and every hash function the constructor ends
inside its bounds with a permutation of the pairs in which the entries of each
bucket are those between its index and the next, and `find` returns a pair with
the key, or `nullptr` exactly when there is none. -/
theorem construct_then_find [DecidableEq K] (hash : K → Nat) (kvs : List (K × V)) :
    ∃ t, construct hash kvs = .ok t ∧ t.table.Perm kvs ∧
      (∀ h, h < t.indexes.length → ∃ start stop, load t.indexes h = .ok start ∧
        bucketEnd t h = .ok stop ∧ start ≤ stop ∧ stop ≤ t.table.length ∧
        ∀ i entry, t.table[i]? = some entry →
          (hash entry.1 &&& t.sizeMask = h ↔ start ≤ i ∧ i < stop)) ∧
      ∀ key, ∃ answer, find hash t key = .ok answer ∧
        (answer = none ↔ ∀ entry ∈ kvs, entry.1 ≠ key) ∧
        ∀ entry, answer = some entry → entry ∈ kvs ∧ entry.1 = key := by
  obtain ⟨t, run, built⟩ := construct_spec hash kvs
  refine ⟨t, run, built.arranged.perm, ?_, ?_⟩
  · intro h inside
    rw [built.starts.room] at inside
    refine ⟨_, _, load_eq_ok.mpr (built.starts.starts h inside), built.bucketEnd_eq inside,
      Nat.le_add_right _ _, ?_, fun i entry found => built.arranged.home_iff i entry found h⟩
    rw [built.arranged.perm.length_eq]
    exact homes_stop_le hash t.sizeMask kvs h
  · intro key
    rcases built.find_spec key with ⟨entry, member, same, hit⟩ | ⟨absent, miss⟩
    · refine ⟨some entry, hit, ⟨nofun, fun different => absurd same (different entry member)⟩, ?_⟩
      rintro _ ⟨⟩
      exact ⟨member, same⟩
    · exact ⟨none, miss, ⟨fun _ => absent, fun _ => rfl⟩, nofun⟩

end CppProject.HashTable.InternalStorage
