import CppProject.Cannon.Lookup
import CppProject.Cannon.BytesHash

/-!
# Loading over an earlier load

`load_kvs` replaces the table but not the counters: `resize` keeps the entries
of `_indexes` that the new size still covers, and the collision count goes on
from them.  Over clear counters the placement loop still does what it does on a
fresh map, and leaves the same table.
-/

namespace CppProject.Cannon.ImmutableHashMap

open Library Library.Checked Library.Records Library.Placement

section Agreement

variable {hash : List Byte → Nat} {m r : ImmutableHashMap} {n : Nat}
variable {layout : Layout (bucketIn hash m) (entriesOf m n)}
variable {spare : Layout (bucketIn hash r) (entriesOf r n)}

/-- Two placement states over the same table that agree on the occupied buckets. -/
structure Agreeing (layout : Layout (bucketIn hash m) (entriesOf m n))
    (spare : Layout (bucketIn hash r) (entriesOf r n)) (s t : PlaceState) : Prop where
  left : Placed layout s
  right : Placed spare t
  table_eq : s.map.table = t.map.table
  scan_eq : s.i = t.i
  fronts : ∀ h, 0 < population (bucketIn hash m) (entriesOf m n) h →
    s.endIndexes[h]? = t.endIndexes[h]?

theorem placeRound_agree (left : Ready hash m n layout) (right : Ready hash r n spare)
    (key : r.keySize = m.keySize) (kv : r.kvSize = m.kvSize) (mask : r.hashMask = m.hashMask)
    (starts : ∀ h, 0 < population (bucketIn hash m) (entriesOf m n) h →
      layout.start h = spare.start h)
    {s t : PlaceState} (agree : Agreeing layout spare s t) :
    (placeRound hash s = .ok none ∧ placeRound hash t = .ok none) ∨
      (∃ fault, placeRound hash s = .error fault ∧ placeRound hash t = .error fault) ∨
      ∃ s' t', placeRound hash s = .ok (some s') ∧ placeRound hash t = .ok (some t') ∧
        Agreeing layout spare s' t' := by
  rcases Nat.lt_or_eq_of_le agree.left.scan_le with inside | finished
  · obtain ⟨h, endIndex, here, last, round⟩ := placeRound_eq left agree.left inside
    obtain ⟨h', endIndex', here', last', round'⟩ :=
      placeRound_eq right agree.right (agree.scan_eq ▸ inside)
    have bucket_eq : bucketIn hash r = bucketIn hash m := by
      simp only [bucketIn, key, mask]
    have same_bucket : h = h' := by
      have cells_eq : (boardOf spare t).cells = (boardOf layout s).cells := by
        simp only [boardOf, kv, agree.table_eq]
      rw [cells_eq, bucket_eq, ← agree.scan_eq] at here'
      exact Option.some.inj (here.symm.trans here')
    subst same_bucket
    have occupied := agree.left.occupied here
    have same_end : endIndex = endIndex' :=
      Option.some.inj (last.symm.trans ((agree.fronts h occupied).trans last'))
    subst same_end
    rw [← starts h occupied, ← agree.scan_eq] at round'
    by_cases home : layout.start h ≤ s.i ∧ s.i < endIndex
    · rw [if_pos home] at round round'
      exact Or.inr (Or.inr ⟨_, _, round, round', (placeRound_move left agree.left inside round).1,
        (placeRound_move right agree.right (agree.scan_eq ▸ inside) round').1, agree.table_eq,
        rfl, agree.fronts⟩)
    · rw [if_neg home] at round round'
      by_cases target : endIndex < n
      · rw [if_pos target] at round round'
        refine Or.inr (Or.inr ⟨_, _, round, round', (placeRound_move left agree.left inside round).1,
          (placeRound_move right agree.right (agree.scan_eq ▸ inside) round').1, ?_, agree.scan_eq, ?_⟩)
        · simp only [swapTo, swapped, agree.table_eq, agree.scan_eq, agree.left.frame.kvSize_eq,
            agree.right.frame.kvSize_eq, kv]
        · intro b b_occupied
          simp only [swapTo, List.getElem?_set, agree.left.room, agree.right.room, mask,
            agree.fronts b b_occupied]
      · rw [if_neg target] at round round'
        exact Or.inr (Or.inl ⟨_, round, round'⟩)
  · exact Or.inl ⟨placeRound_done left agree.left finished,
      placeRound_done right agree.right (agree.scan_eq ▸ finished)⟩

/-- The placement loop sees the starts of occupied buckets only. -/
theorem place_agree (left : Ready hash m n layout) (right : Ready hash r n spare)
    (key : r.keySize = m.keySize) (kv : r.kvSize = m.kvSize) (mask : r.hashMask = m.hashMask)
    (table : r.table = m.table)
    (starts : ∀ h, 0 < population (bucketIn hash m) (entriesOf m n) h →
      layout.start h = spare.start h)
    {placed placed' : ImmutableHashMap} (run : place hash m = .ok placed)
    (run' : place hash r = .ok placed') : placed.table = placed'.table := by
  have fuel : placeFuel r = placeFuel m := by
    unfold placeFuel
    rw [left.count_eq, right.count_eq, left.room, right.room, mask]
  have initial : Agreeing layout spare ⟨m, m.indexes, 0⟩ ⟨r, r.indexes, 0⟩ := by
    refine ⟨placed_initial left, placed_initial right, table.symm, rfl, ?_⟩
    intro h occupied
    have occupied' : 0 < population (bucketIn hash r) (entriesOf r n) h := by
      simpa only [bucketIn, entriesOf, key, mask, kv, table] using occupied
    simp only
    rw [left.start_eq occupied, right.start_eq occupied', starts h occupied]
  unfold place at run run'
  rw [fuel] at run'
  rcases Loop.lockstep (fun s t => placeRound_agree left right key kv mask starts) (placeFuel m)
    initial with ⟨fault, stop, _⟩ | ⟨s, t, done, done', agree⟩
  · rw [stop] at run
    cases run
  · rw [done] at run
    rw [done'] at run'
    cases run
    cases run'
    exact agree.table_eq

end Agreement

variable {hash : List Byte → Nat} {m : ImmutableHashMap} {n : Nat} {kvs : List Byte}

theorem Clear.start_eq (clear : Clear hash m n kvs) {h : Nat}
    (occupied : 0 < population (loadBucket hash m n) (records m.kvSize n kvs) h) :
    (loadLayout hash m n kvs).start h = below (loadBucket hash m n) (records m.kvSize n kvs) h := by
  obtain ⟨entry, member, same⟩ := List.countP_pos_iff.mp occupied
  have none : ∑ l ∈ Finset.range h, leftover m l = 0 := by
    apply Finset.sum_eq_zero
    intro l lower
    exact clear entry member l (by rw [of_decide_eq_true same]; exact Finset.mem_range.mp lower)
  rw [loadLayout, Layout.widened_start, none, Nat.zero_add]

/-- Two clear loads of one table give an occupied bucket the same start. -/
theorem Clear.start_agree {r : ImmutableHashMap} (clear : Clear hash m n kvs)
    (clear' : Clear hash r n kvs) (key : r.keySize = m.keySize) (kv : r.kvSize = m.kvSize) {h : Nat}
    (occupied : 0 < population (loadBucket hash m n) (records m.kvSize n kvs) h) :
    (loadLayout hash m n kvs).start h = (loadLayout hash r n kvs).start h := by
  have bucket_eq : loadBucket hash r n = loadBucket hash m n := by simp only [loadBucket, key]
  have start' := @Clear.start_eq hash r n kvs clear' h
  simp only [bucket_eq, kv] at start'
  exact (clear.start_eq occupied).trans (start' occupied).symm

/-- Two clear loads of one table rearrange it alike. -/
theorem loaded_table_eq {r : ImmutableHashMap} (fitting : Fitting m n kvs) (fitting' : Fitting r n kvs)
    (clear : Clear hash m n kvs) (clear' : Clear hash r n kvs)
    (key : r.keySize = m.keySize) (kv : r.kvSize = m.kvSize) {loaded loaded' : ImmutableHashMap}
    (run : loadKvs hash m kvs = .ok loaded) (run' : loadKvs hash r kvs = .ok loaded') :
    loaded.table = loaded'.table := by
  obtain ⟨starts, same, ready⟩ := loadKvs_opening hash fitting (clear.exactly fitting)
  obtain ⟨starts', same', ready'⟩ := loadKvs_opening hash fitting' (clear'.exactly fitting')
  rw [same] at run
  rw [same'] at run'
  refine place_agree ready ready' key kv rfl rfl ?_ run run'
  intro h occupied
  exact clear.start_agree clear' key kv occupied

end CppProject.Cannon.ImmutableHashMap
