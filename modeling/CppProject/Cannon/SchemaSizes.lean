import CppProject.Cannon.Requests

/-!
# The sizes of a schema

A type has the product of its element size and its count as its size, and a schema adds them
up.  The constructors compute modulo `2 ^ 64` and check neither the products nor the sums, and
they take counts and lists of no elements.
-/

namespace CppProject.Cannon

open Library Library.Checked

namespace KVSchemaType

/-- The element size times the count of a type that is accepted. -/
def exactSize (typeString : Text) : Option Nat :=
  let typeCount := typeString.splitOn '['
  match typeSizeMap.lookup (Text.toLower (Text.trim (typeCount.headD []))) with
  | none => none
  | some elementSize =>
      match typeCount[1]? with
      | none => some elementSize.toNat
      | some count => (Text.stoull (Text.trim count)).map fun elementCount =>
          elementSize.toNat * elementCount.toNat

theorem construct_eq_ok {s : Text} {size : UInt64} :
    construct s = .ok size ↔ ∃ n, exactSize s = some n ∧ size = UInt64.ofNat n := by
  simp only [construct, exactSize]
  cases typeSizeMap.lookup (Text.toLower (Text.trim ((s.splitOn '[').headD []))) with
  | none => simp
  | some elementSize =>
      cases (s.splitOn '[')[1]? with
      | none => simp [eq_comm]
      | some count =>
          cases reads : Text.stoull (Text.trim count) with
          | none => simp [reads]
          | some elementCount => simp [reads, eq_comm]

end KVSchemaType

namespace KVSchema

/-- The sum of the sizes of the types of some entries. -/
def exactSum : List (String × Ptree) → Option Nat
  | [] => some 0
  | entry :: rest => do
      let typeString ← (entry.2.getChild "type").toOption
      let size ← KVSchemaType.exactSize typeString.data
      let sum ← exactSum rest
      some (size + sum)

/-- The size of some entries is their sum, and so it is for any number of them from the first. -/
structure Sums (entries : List (String × Ptree)) (size : UInt64) : Prop where
  exact : exactSum entries = some size.toNat
  partial_sums : ∀ front, front <+: entries →
    ∃ sum, sumSizes 0 front = .ok sum ∧ exactSum front = some sum.toNat

/-- The sizes of a schema are exact, and the loops that stride by them advance. -/
structure Sound (key value : List (String × Ptree)) (schema : KVSchema) : Prop where
  key_sums : Sums key schema.keySize
  value_sums : Sums value schema.valueSize
  key_pos : 1 ≤ schema.keySize.toNat
  divisor : (ImmutableHashMap.ofSizes schema.keySize schema.valueSize).kvSize ≠ 0
  table_advances : ∀ hash (m : ImmutableHashMap) s next,
    m.kvSize = (ImmutableHashMap.ofSizes schema.keySize schema.valueSize).kvSize →
      ImmutableHashMap.countRound hash m s = .ok (some next) → s.2 < next.2
  request_advances : ∀ hash (store : ImmutableHashMap) req s next,
    store.keySize = schema.keySize.toNat →
      CannonHandler.getRound hash store req s = .ok (some next) → s.pos < next.pos

/-- One entry that is added up. -/
theorem sumSizes_cons {entry : String × Ptree} {rest : List (String × Ptree)} {size total : UInt64} :
    sumSizes size (entry :: rest) = .ok total ↔
      ∃ type n, entry.2.getChild "type" = .ok type ∧ KVSchemaType.exactSize type.data = some n ∧
        sumSizes (size + UInt64.ofNat n) rest = .ok total := by
  rw [sumSizes, bind_eq_ok]
  constructor
  · rintro ⟨type, found, run⟩
    obtain ⟨typeSize, accepted, rest_run⟩ := bind_eq_ok.mp run
    obtain ⟨n, measured, rfl⟩ := KVSchemaType.construct_eq_ok.mp accepted
    exact ⟨type, n, found, measured, rest_run⟩
  · rintro ⟨type, n, found, measured, rest_run⟩
    exact ⟨type, found, bind_eq_ok.mpr ⟨_, KVSchemaType.construct_eq_ok.mpr ⟨n, measured, rfl⟩, rest_run⟩⟩

theorem exactSum_cons {entry : String × Ptree} {rest : List (String × Ptree)} {sum : Nat} :
    exactSum (entry :: rest) = some sum ↔
      ∃ type n more, entry.2.getChild "type" = .ok type ∧ KVSchemaType.exactSize type.data = some n ∧
        exactSum rest = some more ∧ sum = n + more := by
  rw [exactSum]
  cases entry.2.getChild "type" with
  | error error =>
      constructor
      · intro stop
        cases stop
      · rintro ⟨_, _, _, found, _⟩
        cases found
  | ok type =>
      simp only [Except.toOption, Option.bind_eq_bind, Option.bind_some, Option.bind_eq_some_iff,
        Option.some.injEq, Except.ok.injEq]
      constructor
      · rintro ⟨n, measured, more, rest_sum, rfl⟩
        exact ⟨type, n, more, rfl, measured, rest_sum, rfl⟩
      · rintro ⟨_, n, more, rfl, measured, rest_sum, rfl⟩
        exact ⟨n, measured, more, rest_sum, rfl⟩

/-- The loop adds up the sizes modulo `2 ^ 64`. -/
theorem sumSizes_eq_ok {entries : List (String × Ptree)} {size total : UInt64} :
    sumSizes size entries = .ok total ↔
      ∃ sum, exactSum entries = some sum ∧ total = size + UInt64.ofNat sum := by
  induction entries generalizing size with
  | nil => simp [sumSizes, exactSum, eq_comm]
  | cons entry rest ih =>
      rw [sumSizes_cons]
      constructor
      · rintro ⟨type, n, found, measured, run⟩
        obtain ⟨more, rest_sum, rfl⟩ := ih.mp run
        refine ⟨n + more, exactSum_cons.mpr ⟨type, n, more, found, measured, rest_sum, rfl⟩, ?_⟩
        rw [UInt64.ofNat_add, UInt64.add_assoc]
      · rintro ⟨sum, added, rfl⟩
        obtain ⟨type, n, more, found, measured, rest_sum, rfl⟩ := exactSum_cons.mp added
        refine ⟨type, n, found, measured, ih.mpr ⟨more, rest_sum, ?_⟩⟩
        rw [UInt64.ofNat_add, UInt64.add_assoc]

/-- The entries in front of some place have a sum that is not larger. -/
theorem exactSum_prefix {front entries : List (String × Ptree)} (part : front <+: entries) {sum : Nat}
    (added : exactSum entries = some sum) : ∃ some_sum, exactSum front = some some_sum ∧ some_sum ≤ sum := by
  induction front generalizing entries sum with
  | nil => exact ⟨0, rfl, Nat.zero_le _⟩
  | cons entry front ih =>
      obtain ⟨rest, rfl, inner⟩ := List.cons_prefix_iff.mp part
      obtain ⟨type, n, more, found, measured, rest_sum, rfl⟩ := exactSum_cons.mp added
      obtain ⟨front_sum, front_added, smaller⟩ := ih inner rest_sum
      exact ⟨n + front_sum, exactSum_cons.mpr ⟨type, n, front_sum, found, measured, front_added, rfl⟩,
        Nat.add_le_add_left smaller n⟩

/-- A sum that is a `size_t` is exact, and so are all sums on the way to it. -/
theorem sums_iff {entries : List (String × Ptree)} {size : UInt64} {sum : Nat}
    (added : exactSum entries = some sum) (run : sumSizes 0 entries = .ok size) :
    Sums entries size ↔ sum < 2 ^ 64 := by
  obtain ⟨_, same, size_eq⟩ := sumSizes_eq_ok.mp run
  obtain rfl := Option.some.inj (added.symm.trans same)
  rw [UInt64.zero_add] at size_eq
  constructor
  · rintro ⟨exact, _⟩
    rw [Option.some.inj (added.symm.trans exact)]
    exact size.toNat_lt
  · intro small
    refine ⟨?_, fun front part => ?_⟩
    · rw [size_eq, UInt64.toNat_ofNat_of_lt' small]
      exact added
    · obtain ⟨front_sum, front_added, smaller⟩ := exactSum_prefix part added
      refine ⟨UInt64.ofNat front_sum, sumSizes_eq_ok.mpr ⟨front_sum, front_added, ?_⟩, ?_⟩
      · rw [UInt64.zero_add]
      · rw [UInt64.toNat_ofNat_of_lt' (Nat.lt_of_le_of_lt smaller small)]
        exact front_added

/-- The size of a record, and of the steps over the table. -/
theorem kvSize_ne_zero {schema : KVSchema} (key_pos : 1 ≤ schema.keySize.toNat) :
    (ImmutableHashMap.ofSizes schema.keySize schema.valueSize).kvSize ≠ 0 ↔
      schema.keySize.toNat + schema.valueSize.toNat ≠ 2 ^ 64 := by
  have key := schema.keySize.toNat_lt
  have value := schema.valueSize.toNat_lt
  change (schema.keySize + schema.valueSize).toNat ≠ 0 ↔ _
  rw [UInt64.toNat_add]
  omega

/-- The sizes of an accepted schema are exact and its loops advance exactly when the sums are a
`size_t` each, the one of the keys is not zero and both together are not `2 ^ 64`. -/
theorem schema_sizes_exact {root : Ptree} {schema : KVSchema} (accepted : construct root = .ok schema) :
    ∃ key value keySum valueSum, root.getChild "key" = .ok key ∧ root.getChild "value" = .ok value ∧
      exactSum key.children = some keySum ∧ exactSum value.children = some valueSum ∧
      (Sound key.children value.children schema ↔
        keySum < 2 ^ 64 ∧ valueSum < 2 ^ 64 ∧ 1 ≤ keySum ∧ keySum + valueSum ≠ 2 ^ 64) := by
  obtain ⟨key, key_found, rest⟩ := bind_eq_ok.mp accepted
  obtain ⟨keySize, key_run, rest⟩ := bind_eq_ok.mp rest
  obtain ⟨value, value_found, rest⟩ := bind_eq_ok.mp rest
  obtain ⟨valueSize, value_run, built⟩ := bind_eq_ok.mp rest
  cases built
  obtain ⟨keySum, key_added, _⟩ := sumSizes_eq_ok.mp key_run
  obtain ⟨valueSum, value_added, _⟩ := sumSizes_eq_ok.mp value_run
  refine ⟨key, value, keySum, valueSum, key_found, value_found, key_added, value_added, ?_, ?_⟩
  · rintro ⟨key_sums, value_sums, key_pos, divisor, _, _⟩
    rw [kvSize_ne_zero key_pos] at divisor
    rw [Option.some.inj (key_added.symm.trans key_sums.exact),
      Option.some.inj (value_added.symm.trans value_sums.exact)]
    exact ⟨keySize.toNat_lt, valueSize.toNat_lt, key_pos, divisor⟩
  · rintro ⟨key_small, value_small, key_some, apart⟩
    have key_sums := (sums_iff key_added key_run).mpr key_small
    have value_sums := (sums_iff value_added value_run).mpr value_small
    have key_eq := Option.some.inj (key_added.symm.trans key_sums.exact)
    have value_eq := Option.some.inj (value_added.symm.trans value_sums.exact)
    have key_pos : 1 ≤ keySize.toNat := key_eq ▸ key_some
    have divisor := (@kvSize_ne_zero ⟨keySize, valueSize⟩ key_pos).mpr (by rw [← key_eq, ← value_eq]; exact apart)
    refine ⟨key_sums, value_sums, key_pos, divisor, ?_, ?_⟩
    · intro hash m s next same go
      rw [(ImmutableHashMap.countRound_some go).2, same]
      exact Nat.lt_add_of_pos_right (Nat.pos_of_ne_zero divisor)
    · intro hash store req s next same go
      rw [(CannonHandler.getRound_some go).2, same]
      exact Nat.lt_add_of_pos_right key_pos

/-- Keys of eight bytes, and values of a float and two doubles. -/
theorem schema_sizes_exact_small : ∃ key value,
    construct (.node [] [("key", .node [] key), ("value", .node [] value)]) = .ok ⟨8, 20⟩ ∧
      Sound key value ⟨8, 20⟩ := by
  refine ⟨[("", .node [] [("type", .node "i64".toList [])])],
    [("", .node [] [("type", .node "float".toList [])]), ("", .node [] [("type", .node "double[2]".toList [])])],
    by rfl, ?_⟩
  obtain ⟨key, value, keySum, valueSum, key_found, value_found, key_added, value_added, sound⟩ :=
    @schema_sizes_exact (.node [] [("key", .node [] [("", .node [] [("type", .node "i64".toList [])])]),
      ("value", .node [] [("", .node [] [("type", .node "float".toList [])]),
        ("", .node [] [("type", .node "double[2]".toList [])])])]) ⟨8, 20⟩ (by rfl)
  cases key_found
  cases value_found
  obtain rfl : keySum = 8 := Option.some.inj (key_added.symm.trans (by rfl))
  obtain rfl : valueSum = 20 := Option.some.inj (value_added.symm.trans (by rfl))
  exact sound.mpr (by decide)

/-- Schemas without a key type, with a count of zero and with a count whose product is `2 ^ 64`
are accepted, with keys of no bytes. -/
theorem schema_sizes_empty_key : ∃ value,
    construct (.node [] [("key", .node [] []), ("value", .node [] value)]) = .ok ⟨0, 4⟩ ∧
      ¬Sound [] value ⟨0, 4⟩ ∧
      sumSizes 0 [("", .node [] [("type", .node "i32[0]".toList [])])] = .ok 0 ∧
      sumSizes 0 [("", .node [] [("type", .node "i32[4611686018427387904]".toList [])])] = .ok 0 := by
  refine ⟨[("", .node [] [("type", .node "i32".toList [])])], by rfl, ?_, by rfl, by rfl⟩
  intro sound
  exact absurd sound.key_pos (by decide)

end KVSchema

end CppProject.Cannon
