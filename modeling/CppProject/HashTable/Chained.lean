import CppProject.HashTable.Basic
import CppProject.Library.Chains

/-!
# The chained `immutable_hash_table`

Both copies of the header, the one of the library and the one of the server, are
this table.  A chain is the list of the entries that are linked from its bucket,
head first; relinking a node moves its entry from one list to another.
-/

namespace CppProject.HashTable.Chained

open Library Library.Checked Library.Chains
open scoped List

structure ImmutableHashTable (K V : Type) where
  buckets : List (List (K × V))
  size : Nat
  sizeMask : Nat
  used : Nat
  loading : Bool

/-- The constructor. -/
def create (K V : Type) (size : Nat) : ImmutableHashTable K V where
  buckets := List.replicate (nextPower size) []
  size := nextPower size
  sizeMask := nextPower size - 1
  used := 0
  loading := false

section Model

variable {K V : Type}

/-- `_freeEntryList` for `left` buckets from `i` on. -/
def freeFrom : Nat → Nat → List (List (K × V)) → Except Fault (List (List (K × V)))
  | 0, _, buckets => .ok buckets
  | left + 1, i, buckets => do
      let buckets ← store buckets i []
      freeFrom left (i + 1) buckets

/-- `_reset` -/
def reset (t : ImmutableHashTable K V) : Except Fault (ImmutableHashTable K V) :=
  if 0 < t.used then do
    let buckets ← freeFrom t.size 0 t.buckets
    .ok { t with buckets := buckets, used := 0, loading := false }
  else .ok t

def beginLoading (t : ImmutableHashTable K V) : Except Fault (ImmutableHashTable K V) := do
  let t ← reset t
  .ok { t with loading := true }

def entryCount (t : ImmutableHashTable K V) : Nat := t.used

def bucketCount (t : ImmutableHashTable K V) : Nat := t.size

variable (hash : K → Nat)

/-- Every node of a chain becomes the head of its chain under the new mask. -/
def relinkChain (mask : Nat) : List (K × V) → List (List (K × V)) →
    Except Fault (List (List (K × V)))
  | [], buckets => .ok buckets
  | head :: next, buckets => do
      let h := hash head.1 &&& mask
      let chain ← load buckets h
      let buckets ← store buckets h (head :: chain)
      relinkChain mask next buckets

/-- The full table rehash, for `left` old buckets from `i` on. -/
def relinkFrom (mask : Nat) (old : List (List (K × V))) : Nat → Nat → List (List (K × V)) →
    Except Fault (List (List (K × V)))
  | 0, _, buckets => .ok buckets
  | left + 1, i, buckets => do
      let chain ← load old i
      let buckets ← relinkChain hash mask chain buckets
      relinkFrom mask old left (i + 1) buckets

/-- `_rehash` -/
def rehash (t : ImmutableHashTable K V) (size : Nat) : Except Fault (ImmutableHashTable K V) :=
  if nextPower size = t.size then .ok t
  else do
    let buckets ← relinkFrom hash (nextPower size - 1) t.buckets t.size 0
      (List.replicate (nextPower size) [])
    .ok { t with buckets := buckets, size := nextPower size, sizeMask := nextPower size - 1 }

/-- `_expandIfNeeded` -/
def expandIfNeeded (t : ImmutableHashTable K V) : Except Fault (ImmutableHashTable K V) :=
  if t.size ≤ t.used then rehash hash t (t.used * 2) else .ok t

/-- `_shrinkIfNeeded` -/
def shrinkIfNeeded (t : ImmutableHashTable K V) : Except Fault (ImmutableHashTable K V) :=
  if t.used * 2 < t.size then rehash hash t (t.used * 2) else .ok t

def endLoading (t : ImmutableHashTable K V) : Except Fault (ImmutableHashTable K V) := do
  let t ← shrinkIfNeeded hash t
  .ok { t with loading := false }

variable [DecidableEq K]

/-- `find`: the entry behind the returned pointer, or `nullptr`. -/
def find (t : ImmutableHashTable K V) (key : K) : Except Fault (Option (K × V)) :=
  if t.loading ∨ t.used = 0 then .ok none
  else do
    let chain ← load t.buckets (hash key &&& t.sizeMask)
    .ok (lookup key chain)

/-- `insert`: the new entry, or `nullptr` for a rejected insert. -/
def insert (t : ImmutableHashTable K V) (key : K) (val : V) :
    Except Fault (Option (K × V) × ImmutableHashTable K V) :=
  if t.loading then do
    let t ← expandIfNeeded hash t
    let h := hash key &&& t.sizeMask
    let chain ← load t.buckets h
    match lookup key chain with
    | some _ => .ok (none, t)
    | none => do
        let buckets ← store t.buckets h ((key, val) :: chain)
        .ok (some (key, val), { t with buckets := buckets, used := t.used + 1 })
  else .ok (none, t)

end Model

/-! ## The map that the table is meant to be -/

/-- A finite map with a loading flag. -/
structure LoadingMap (K V : Type) where
  loading : Bool
  entries : List (K × V)
  distinct : (entries.map Prod.fst).Nodup

inductive Operation (K V : Type) where
  | beginLoading
  | insert (key : K) (val : V)
  | endLoading
  | find (key : K)
  | entryCount

inductive Answer (K V : Type) where
  | done
  | entry (found : Option (K × V))
  | count (entries : Nat)

section Machines

variable {K V : Type} [DecidableEq K]

namespace LoadingMap

def empty (K V : Type) : LoadingMap K V := ⟨false, [], List.nodup_nil⟩

/-- Inserts are accepted while loading, for keys that are not in the map. -/
def insert (s : LoadingMap K V) (key : K) (val : V) : Option (K × V) × LoadingMap K V :=
  if fresh : s.loading ∧ key ∉ s.entries.map Prod.fst then
    (some (key, val), ⟨s.loading, (key, val) :: s.entries, List.nodup_cons.mpr ⟨fresh.2, s.distinct⟩⟩)
  else (none, s)

theorem insert_rejected {s : LoadingMap K V} {key : K}
    (rejected : ¬(s.loading ∧ key ∉ s.entries.map Prod.fst)) (val : V) :
    s.insert key val = (none, s) :=
  dif_neg rejected

theorem insert_accepted {s : LoadingMap K V} {key : K}
    (accepted : s.loading ∧ key ∉ s.entries.map Prod.fst) (val : V) :
    s.insert key val = (some (key, val),
      ⟨s.loading, (key, val) :: s.entries, List.nodup_cons.mpr ⟨accepted.2, s.distinct⟩⟩) :=
  dif_pos accepted

def step (s : LoadingMap K V) : Operation K V → Answer K V × LoadingMap K V
  | .beginLoading => (.done, ⟨true, [], List.nodup_nil⟩)
  | .insert key val => (.entry (s.insert key val).1, (s.insert key val).2)
  | .endLoading => (.done, ⟨false, s.entries, s.distinct⟩)
  | .find key => (.entry (if s.loading then none else lookup key s.entries), s)
  | .entryCount => (.count s.entries.length, s)

def run (s : LoadingMap K V) : List (Operation K V) → List (Answer K V) × LoadingMap K V
  | [] => ([], s)
  | operation :: rest =>
      ((s.step operation).1 :: (run (s.step operation).2 rest).1, (run (s.step operation).2 rest).2)

end LoadingMap

def step (hash : K → Nat) (t : ImmutableHashTable K V) :
    Operation K V → Except Fault (Answer K V × ImmutableHashTable K V)
  | .beginLoading => do
      let t ← beginLoading t
      .ok (.done, t)
  | .insert key val => do
      let (found, t) ← insert hash t key val
      .ok (.entry found, t)
  | .endLoading => do
      let t ← endLoading hash t
      .ok (.done, t)
  | .find key => do
      let found ← find hash t key
      .ok (.entry found, t)
  | .entryCount => .ok (.count (entryCount t), t)

def run (hash : K → Nat) (t : ImmutableHashTable K V) :
    List (Operation K V) → Except Fault (List (Answer K V) × ImmutableHashTable K V)
  | [] => .ok ([], t)
  | operation :: rest => do
      let (answer, t) ← step hash t operation
      let (answers, t) ← run hash t rest
      .ok (answer :: answers, t)

end Machines

/-! ## Relinking -/

section Relinking

variable {K V : Type} {hash : K → Nat} {mask : Nat}

/-- A bucket array that files every entry under the mask. -/
structure FiledUnder (hash : K → Nat) (mask : Nat) (buckets : List (List (K × V))) : Prop where
  room : buckets.length = mask + 1
  filed : Filed (fun entry => hash entry.1 &&& mask) buckets

theorem filedUnder_replicate (hash : K → Nat) (mask : Nat) :
    FiledUnder hash mask (List.replicate (mask + 1) ([] : List (K × V))) :=
  ⟨List.length_replicate, filed_replicate _ _⟩

/-- The mask keeps every bucket index inside the array. -/
theorem FiledUnder.bucket {buckets : List (List (K × V))} (under : FiledUnder hash mask buckets)
    (key : K) : ∃ chain, load buckets (hash key &&& mask) = .ok chain ∧
      buckets[hash key &&& mask]? = some chain := by
  have inside : hash key &&& mask < buckets.length := by
    rw [under.room]
    exact Nat.lt_succ_of_le Nat.and_le_right
  exact ⟨_, load_of_lt inside, List.getElem?_eq_getElem inside⟩

/-- Linking an entry in front of the chain of its bucket. -/
theorem FiledUnder.link {buckets : List (List (K × V))} (under : FiledUnder hash mask buckets)
    (entry : K × V) {chain : List (K × V)} (here : buckets[hash entry.1 &&& mask]? = some chain) :
    ∃ linked, store buckets (hash entry.1 &&& mask) (entry :: chain) = .ok linked ∧
      FiledUnder hash mask linked ∧ linked.flatten.Perm (entry :: buckets.flatten) := by
  obtain ⟨inside, _⟩ := List.getElem?_eq_some_iff.mp here
  exact ⟨_, store_of_lt inside _, ⟨List.length_set.trans under.room, under.filed.push here⟩,
    flatten_push_perm here entry⟩

theorem relinkChain_spec (chain : List (K × V)) {buckets : List (List (K × V))}
    (under : FiledUnder hash mask buckets) :
    ∃ relinked, relinkChain hash mask chain buckets = .ok relinked ∧
      FiledUnder hash mask relinked ∧ relinked.flatten.Perm (chain ++ buckets.flatten) := by
  induction chain generalizing buckets with
  | nil => exact ⟨buckets, rfl, under, .refl _⟩
  | cons head next ih =>
      obtain ⟨old, read, here⟩ := under.bucket head.1
      obtain ⟨linked, write, linked_under, linked_perm⟩ := under.link head here
      obtain ⟨relinked, run, relinked_under, perm⟩ := ih linked_under
      refine ⟨relinked, ?_, relinked_under, ?_⟩
      · simp only [relinkChain, read, write, ok_bind, run]
      · calc relinked.flatten
            _ ~ next ++ linked.flatten := perm
            _ ~ next ++ head :: buckets.flatten := linked_perm.append_left next
            _ ~ head :: (next ++ buckets.flatten) := List.perm_middle

theorem relinkFrom_spec (old : List (List (K × V))) {left i : Nat} (rest : i + left = old.length)
    {buckets : List (List (K × V))} (under : FiledUnder hash mask buckets) :
    ∃ relinked, relinkFrom hash mask old left i buckets = .ok relinked ∧
      FiledUnder hash mask relinked ∧
      relinked.flatten.Perm ((old.drop i).flatten ++ buckets.flatten) := by
  induction left generalizing i buckets with
  | zero =>
      refine ⟨buckets, rfl, under, ?_⟩
      rw [List.drop_of_length_le (by omega)]
      exact .refl _
  | succ left ih =>
      have inside : i < old.length := by omega
      obtain ⟨linked, walk, linked_under, linked_perm⟩ := relinkChain_spec old[i] under
      obtain ⟨relinked, run, relinked_under, perm⟩ :=
        ih (show i + 1 + left = old.length by omega) linked_under
      refine ⟨relinked, ?_, relinked_under, ?_⟩
      · simp only [relinkFrom, load_of_lt inside, walk, ok_bind, run]
      · rw [List.drop_eq_getElem_cons inside, List.flatten_cons, List.append_assoc]
        calc relinked.flatten
            _ ~ (old.drop (i + 1)).flatten ++ linked.flatten := perm
            _ ~ (old.drop (i + 1)).flatten ++ (old[i] ++ buckets.flatten) :=
                linked_perm.append_left _
            _ ~ old[i] ++ ((old.drop (i + 1)).flatten ++ buckets.flatten) :=
                List.perm_append_comm_assoc _ _ _

theorem freeFrom_spec {left i : Nat} {buckets : List (List (K × V))}
    (rest : i + left = buckets.length) :
    freeFrom left i buckets = .ok (buckets.take i ++ List.replicate left []) := by
  induction left generalizing i buckets with
  | zero => rw [List.take_of_length_le (by omega), List.replicate_zero, List.append_nil]; rfl
  | succ left ih =>
      have inside : i < buckets.length := by omega
      have room : i + 1 + left = (buckets.set i []).length := by
        rw [List.length_set]
        omega
      have front : (buckets.set i []).take (i + 1) = buckets.take i ++ [[]] := by
        rw [List.take_add_one, List.take_set_of_le (Nat.le_refl i), List.getElem?_set_self inside]
        rfl
      simp only [freeFrom, store_of_lt inside, ok_bind]
      rw [ih room, front, List.append_assoc]
      rfl

end Relinking

/-! ## The refinement -/

section Refinement

variable {K V : Type} {hash : K → Nat}

/-- The table holds the entries of the map, filed under its mask. -/
structure Represents (hash : K → Nat) (t : ImmutableHashTable K V) (s : LoadingMap K V) : Prop where
  size_eq : t.size = t.sizeMask + 1
  under : FiledUnder hash t.sizeMask t.buckets
  perm : t.buckets.flatten ~ s.entries
  used_eq : t.used = s.entries.length
  loading_eq : t.loading = s.loading

variable {t : ImmutableHashTable K V} {s : LoadingMap K V}

theorem nextPower_eq_mask (size : Nat) : nextPower size = nextPower size - 1 + 1 :=
  (Nat.sub_add_cancel (nextPower_pos size)).symm

/-- An empty bucket array of any rounded size. -/
theorem filedUnder_empty (hash : K → Nat) (size : Nat) :
    FiledUnder hash (nextPower size - 1) (List.replicate (nextPower size) ([] : List (K × V))) := by
  have empty := filedUnder_replicate (V := V) hash (nextPower size - 1)
  rwa [← nextPower_eq_mask] at empty

theorem represents_create (hash : K → Nat) (size : Nat) :
    Represents hash (create K V size) (LoadingMap.empty K V) := by
  refine ⟨nextPower_eq_mask size, filedUnder_empty hash size, ?_, rfl, rfl⟩
  simp only [create, List.flatten_replicate_nil, LoadingMap.empty]
  exact .refl _

/-- Rehashing to any size keeps the map. -/
theorem Represents.rehash (represents : Represents hash t s) (size : Nat) :
    ∃ next, rehash hash t size = .ok next ∧ Represents hash next s := by
  obtain ⟨size_eq, under, perm, used_eq, loading_eq⟩ := represents
  by_cases same : nextPower size = t.size
  · exact ⟨t, if_pos same, size_eq, under, perm, used_eq, loading_eq⟩
  · have all : 0 + t.size = t.buckets.length := by
      rw [Nat.zero_add, under.room, size_eq]
    obtain ⟨relinked, run, relinked_under, relinked_perm⟩ :=
      relinkFrom_spec t.buckets all (filedUnder_empty hash size)
    refine ⟨{ t with buckets := relinked, size := nextPower size, sizeMask := nextPower size - 1 },
      ?_, nextPower_eq_mask size, relinked_under, ?_, used_eq, loading_eq⟩
    · simp only [Chained.rehash, if_neg same, run, ok_bind]
    · rw [List.drop_zero, List.flatten_replicate_nil, List.append_nil] at relinked_perm
      exact relinked_perm.trans perm

theorem Represents.expandIfNeeded (represents : Represents hash t s) :
    ∃ next, expandIfNeeded hash t = .ok next ∧ Represents hash next s := by
  unfold Chained.expandIfNeeded
  split
  · exact represents.rehash _
  · exact ⟨t, rfl, represents⟩

theorem Represents.shrinkIfNeeded (represents : Represents hash t s) :
    ∃ next, shrinkIfNeeded hash t = .ok next ∧ Represents hash next s := by
  unfold Chained.shrinkIfNeeded
  split
  · exact represents.rehash _
  · exact ⟨t, rfl, represents⟩

/-- An unused table has empty chains; a used one is emptied. -/
theorem Represents.reset (represents : Represents hash t s) :
    ∃ next, reset t = .ok next ∧ next.size = next.sizeMask + 1 ∧
      FiledUnder hash next.sizeMask next.buckets ∧ next.buckets.flatten = [] ∧ next.used = 0 := by
  obtain ⟨size_eq, under, perm, used_eq, loading_eq⟩ := represents
  rcases Nat.eq_zero_or_pos t.used with unused | occupied
  · have none : s.entries = [] := List.length_eq_zero_iff.mp (used_eq.symm.trans unused)
    rw [none] at perm
    exact ⟨t, if_neg (by omega), size_eq, under, perm.eq_nil, unused⟩
  · have all : 0 + t.size = t.buckets.length := by
      rw [Nat.zero_add, under.room, size_eq]
    refine ⟨{ t with buckets := List.replicate t.size [], used := 0, loading := false }, ?_,
      size_eq, ?_, List.flatten_replicate_nil, rfl⟩
    · simp only [Chained.reset, if_pos occupied, freeFrom_spec all, ok_bind, List.take_zero,
        List.nil_append]
    · rw [size_eq]
      exact filedUnder_replicate hash t.sizeMask

theorem Represents.beginLoading (represents : Represents hash t s) :
    ∃ next, beginLoading t = .ok next ∧ Represents hash next ⟨true, [], List.nodup_nil⟩ := by
  obtain ⟨next, run, size_eq, under, empty, unused⟩ := represents.reset
  refine ⟨{ next with loading := true }, ?_, size_eq, under, ?_, unused, rfl⟩
  · simp only [Chained.beginLoading, run, ok_bind]
  · simp only [empty]
    exact .refl _

theorem Represents.endLoading (represents : Represents hash t s) :
    ∃ next, endLoading hash t = .ok next ∧
      Represents hash next ⟨false, s.entries, s.distinct⟩ := by
  obtain ⟨next, run, after⟩ := represents.shrinkIfNeeded
  refine ⟨{ next with loading := false }, ?_, after.size_eq, after.under, after.perm, after.used_eq,
    rfl⟩
  simp only [Chained.endLoading, run, ok_bind]

variable [DecidableEq K]

/-- A walk along the chain of a key's bucket is a lookup in the map. -/
theorem Represents.chain (represents : Represents hash t s) (key : K) :
    ∃ chain, load t.buckets (hash key &&& t.sizeMask) = .ok chain ∧
      t.buckets[hash key &&& t.sizeMask]? = some chain ∧ lookup key chain = lookup key s.entries := by
  obtain ⟨chain, read, here⟩ := represents.under.bucket key
  refine ⟨chain, read, here, ?_⟩
  exact Filed.lookup_eq (fun key => hash key &&& t.sizeMask) represents.under.filed
    represents.perm s.distinct here

theorem Represents.find_eq (represents : Represents hash t s) (key : K) :
    find hash t key = .ok (if s.loading then none else lookup key s.entries) := by
  obtain ⟨chain, read, _, same⟩ := represents.chain key
  rw [find, represents.loading_eq, represents.used_eq, read, ok_bind, same]
  cases s.loading with
  | true => simp
  | false =>
      cases entries_eq : s.entries with
      | nil => simp [lookup]
      | cons entry rest => simp

theorem Represents.insert (represents : Represents hash t s) (key : K) (val : V) :
    ∃ next, insert hash t key val = .ok ((s.insert key val).1, next) ∧
      Represents hash next (s.insert key val).2 := by
  rw [Chained.insert, represents.loading_eq]
  cases loading : s.loading with
  | false =>
      rw [LoadingMap.insert_rejected (by simp [loading])]
      exact ⟨t, rfl, represents⟩
  | true =>
      -- the table may expand even when the insert is rejected
      obtain ⟨grown, expand, after⟩ := represents.expandIfNeeded
      obtain ⟨chain, read, here, same⟩ := after.chain key
      simp only [if_true, expand, ok_bind, read, same]
      cases found : lookup key s.entries with
      | some entry =>
          have known : key ∈ s.entries.map Prod.fst := by
            by_contra absent
            rw [lookup_eq_none.mpr absent] at found
            cases found
          rw [LoadingMap.insert_rejected (fun accepted => accepted.2 known)]
          exact ⟨grown, rfl, after⟩
      | none =>
          obtain ⟨linked, write, under, perm⟩ := after.under.link (key, val) here
          rw [LoadingMap.insert_accepted ⟨loading, lookup_eq_none.mp found⟩]
          refine ⟨{ grown with buckets := linked, used := grown.used + 1 }, ?_, after.size_eq, under,
            perm.trans (after.perm.cons _), ?_, after.loading_eq⟩
          · simp only [write, ok_bind]
          · simp only [after.used_eq, List.length_cons]

/-- One operation answers like the map and keeps representing it. -/
theorem Represents.step (represents : Represents hash t s) (operation : Operation K V) :
    ∃ next, step hash t operation = .ok ((s.step operation).1, next) ∧
      Represents hash next (s.step operation).2 := by
  cases operation with
  | beginLoading =>
      obtain ⟨next, run, after⟩ := represents.beginLoading
      exact ⟨next, by simp only [Chained.step, run, ok_bind]; rfl, after⟩
  | insert key val =>
      obtain ⟨next, run, after⟩ := represents.insert key val
      exact ⟨next, by simp only [Chained.step, run, ok_bind]; rfl, after⟩
  | endLoading =>
      obtain ⟨next, run, after⟩ := represents.endLoading
      exact ⟨next, by simp only [Chained.step, run, ok_bind]; rfl, after⟩
  | find key =>
      exact ⟨t, by simp only [Chained.step, represents.find_eq, ok_bind]; rfl, represents⟩
  | entryCount =>
      refine ⟨t, ?_, represents⟩
      simp only [Chained.step, entryCount, represents.used_eq]
      rfl

/-- Runs answer like runs of the map. -/
theorem Represents.run (represents : Represents hash t s) (operations : List (Operation K V)) :
    ∃ last, run hash t operations = .ok ((s.run operations).1, last) ∧
      Represents hash last (s.run operations).2 := by
  induction operations generalizing t s with
  | nil => exact ⟨t, rfl, represents⟩
  | cons operation rest ih =>
      obtain ⟨next, go, after⟩ := represents.step operation
      obtain ⟨last, run, ended⟩ := ih after
      refine ⟨last, ?_, ended⟩
      simp only [Chained.run, go, run, ok_bind]
      rfl

end Refinement

/-- For every hash function, every constructor size and every sequence of
operations, the table answers like a finite map with a loading flag, and ends
up representing it.  The answers do not depend on the bucket array. -/
theorem refines_loading_map {K V : Type} [DecidableEq K] (hash : K → Nat) (size : Nat)
    (operations : List (Operation K V)) :
    ∃ last, run hash (create K V size) operations =
        .ok (((LoadingMap.empty K V).run operations).1, last) ∧
      Represents hash last ((LoadingMap.empty K V).run operations).2 :=
  (represents_create hash size).run operations

end CppProject.HashTable.Chained
