import CppProject.Library.Loop
import CppProject.Library.Powers
import CppProject.Library.PrefixSums

/-!
# `ImmutableHashMap` of the cannon store

The map keeps its records in one byte table and rearranges them in place, so
that the records of one hash bucket are adjacent.  `_indexes` holds the start
of every bucket.  A `size_t` is a natural number that is reduced modulo
`2 ^ 64`: the sum of the two sizes, the counters, which a load may find large,
and the positions computed from them.  The other sums and products are at most
the length of the table and one record more.  A vector of bytes has fewer than
`2 ^ 63` of them, so these are exact.
-/

namespace CppProject.Cannon

open Library Library.Checked

/-- `typedef int8_t byte`, as raw bits. -/
abbrev Byte := BitVec 8

/-- What a `size_t` keeps of a number. -/
def sizeT (number : Nat) : Nat := number % 2 ^ 64

theorem sizeT_of_lt {number : Nat} (small : number < 2 ^ 64) : sizeT number = number :=
  Nat.mod_eq_of_lt small

structure ImmutableHashMap where
  keySize : Nat
  valueSize : Nat
  kvSize : Nat
  kvCount : Nat
  hashMask : Nat
  table : List Byte
  indexes : List Nat
  deriving DecidableEq, Repr

/-- The first power of 2 from 16 on that is equal or greater than `size`. -/
def nextPower (size : Nat) : Nat := growPower size size 16

namespace ImmutableHashMap

/-- The constructor; `_kv_size` is a sum of `size_t`s.  `_hash_mask` is not initialised by it;
`_indexes` is still empty then, so no lookup gets past its bounds check before the first load. -/
def ofSizes (keySize valueSize : UInt64) : ImmutableHashMap where
  keySize := keySize.toNat
  valueSize := valueSize.toNat
  kvSize := (keySize + valueSize).toNat
  kvCount := 0
  hashMask := 0
  table := []
  indexes := []

def swapKv (m : ImmutableHashMap) (xIndex yIndex : Nat) : Except Fault ImmutableHashMap :=
  if xIndex = yIndex then .ok m
  else do
    let xP := sizeT (xIndex * m.kvSize)
    let yP := sizeT (yIndex * m.kvSize)
    let tmp ← readBlock m.table xP m.kvSize
    let y ← readBlock m.table yP m.kvSize
    let table ← writeBlock m.table xP y
    let table ← writeBlock table yP tmp
    .ok { m with table := table }

section Hashed

-- `__murmur2_or_cityhash<std::size_t>` applied to the bytes of a key
variable (hash : List Byte → Nat)

/-- The key bytes at `pos`, hashed and masked. -/
def bucketAtPos (m : ImmutableHashMap) (pos : Nat) : Except Fault Nat := do
  let key ← readBlock m.table pos m.keySize
  .ok (hash key &&& m.hashMask)

/-- One round of the collision count: `++_indexes[hash]`. -/
def countRound (m : ImmutableHashMap) : List Nat × Nat → Except Fault (Option (List Nat × Nat))
  | (indexes, i) =>
      if i < m.table.length then do
        let h ← bucketAtPos hash m i
        let count ← load indexes h
        let indexes ← store indexes h (sizeT (count + 1))
        .ok (some (indexes, i + m.kvSize))
      else .ok none

/-- The loop that uses `_indexes` to store the number of collisions. -/
def countCollisions (m : ImmutableHashMap) : Except Fault (List Nat) := do
  let counted ← whileLoop (countRound hash m) (m.table.length + 1) (m.indexes, 0)
  .ok counted.1

/-- The variables of the placement loop. -/
structure PlaceState where
  map : ImmutableHashMap
  endIndexes : List Nat
  i : Nat

/-- One round of the placement loop. -/
def placeRound (s : PlaceState) : Except Fault (Option PlaceState) :=
  if s.i < s.map.kvCount then do
    let h ← bucketAtPos hash s.map (s.i * s.map.kvSize)
    let beginIndex ← load s.map.indexes h
    let endIndex ← load s.endIndexes h
    if beginIndex ≤ s.i ∧ s.i < endIndex then
      .ok (some { s with i := s.i + 1 })
    else do
      let map ← swapKv s.map s.i endIndex
      let endIndexes ← store s.endIndexes h (sizeT (endIndex + 1))
      .ok (some { s with map := map, endIndexes := endIndexes })
  else .ok none

/-- Rounds that the placement loop cannot exceed: every round moves `i` or one
of the end indexes, none of which passes the number of records. -/
def placeFuel (m : ImmutableHashMap) : Nat := m.kvCount * (m.indexes.length + 1) + 1

/-- The placement loop. -/
def place (m : ImmutableHashMap) : Except Fault ImmutableHashMap := do
  let last ← whileLoop (placeRound hash) (placeFuel m) ⟨m, m.indexes, 0⟩
  .ok last.map

def constructImmutableHashMap (m : ImmutableHashMap) : Except Fault ImmutableHashMap :=
  if m.kvSize = 0 then .error .divisionByZero
  else do
    let kvCount := m.table.length / m.kvSize
    let hashSize := nextPower kvCount
    -- `resize` keeps the counters that are already there
    let m := { m with
      kvCount := kvCount
      indexes := resize m.indexes (hashSize + 1) 0
      hashMask := hashSize - 1 }
    let counted ← countCollisions hash m
    place hash { m with indexes := prefixSumsMod (2 ^ 64) 0 counted }

def loadKvs (m : ImmutableHashMap) (kvs : List Byte) : Except Fault ImmutableHashMap :=
  constructImmutableHashMap hash { m with table := kvs }

/-- The scan of `seek` over the positions from `beginIndex` on. -/
def seekFrom (m : ImmutableHashMap) (key : List Byte) : Nat → Nat → Except Fault (Option Nat)
  | 0, _ => .ok none
  | left + 1, beginIndex => do
      let stored ← readBlock m.table (sizeT (beginIndex * m.kvSize)) m.keySize
      if stored = key then .ok (some (sizeT (beginIndex * m.kvSize + m.keySize)))
      else seekFrom m key left (beginIndex + 1)

/-- `seek`: the position of the value bytes in the table, or `nullptr`. -/
def seek (m : ImmutableHashMap) (key : List Byte) : Except Fault (Option Nat) := do
  let h := hash key &&& m.hashMask
  let beginIndex ← load m.indexes h
  let endIndex ← load m.indexes (h + 1)
  seekFrom m key (endIndex - beginIndex) beginIndex

/-- The value bytes behind the pointer that `seek` returns. -/
def seekValue (m : ImmutableHashMap) (key : List Byte) : Except Fault (Option (List Byte)) := do
  match ← seek hash m key with
  | none => .ok none
  | some pos => do
      let value ← readBlock m.table pos m.valueSize
      .ok (some value)

/-- A sequence of `load_kvs` calls on one map. -/
def loadAll (m : ImmutableHashMap) : List (List Byte) → Except Fault ImmutableHashMap
  | [] => .ok m
  | kvs :: rest => do
      let m ← loadKvs hash m kvs
      loadAll m rest

end Hashed

end ImmutableHashMap

end CppProject.Cannon
