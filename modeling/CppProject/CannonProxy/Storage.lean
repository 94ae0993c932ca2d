import CppProject.Library.Overlay
import Mathlib.Algebra.GroupWithZero.Nat

/-!
# The cannon server

The messages between proxy and server, the two-slot `Storage` and the
`CannonHandler` over it.  The interface files of proxy and server declare the
same enumerations, so one copy serves both.  A `sparse_hash_map` is the finite
map it stores, and `DLOG(FATAL)` is compiled out.
-/

namespace CppProject.CannonProxy

open Library

inductive ItemStatus where
  | found
  | notFound
  | error
  deriving DecidableEq, Repr

inductive Status where
  | ok
  | partialOk
  | error
  deriving DecidableEq, Repr

structure ValueItem (V : Type) where
  status : ItemStatus
  value : V
  deriving DecidableEq, Repr

/-- `ValueItem()` -/
def ValueItem.init (V : Type) [Zero V] : ValueItem V := ⟨.found, 0⟩

structure CannonKV (V : Type) where
  key : Int64
  value : V
  deriving DecidableEq, Repr

structure CannonResponse (V : Type) where
  status : Status
  values : List (ValueItem V)
  deriving DecidableEq, Repr

/-- `TStore` -/
abbrev Store (V : Type) := Int64 → Option V

/-! ## `Storage` -/

structure Storage (V : Type) where
  stores : Fin 2 → Store V

/-- `data_version & 1` -/
def getIndex (dataVersion : Nat) : Fin 2 :=
  ⟨dataVersion &&& 1, Nat.lt_succ_of_le Nat.and_le_right⟩

namespace Storage

variable {V : Type}

def init (V : Type) : Storage V := ⟨fun _ _ => none⟩

/-- The store that a version is served from. -/
def slot (s : Storage V) (dataVersion : Nat) : Store V := s.stores (getIndex dataVersion)

def withSlot (s : Storage V) (dataVersion : Nat) (store : Store V) : Storage V :=
  ⟨Function.update s.stores (getIndex dataVersion) store⟩

/-- `seek`: the status, and `*value` behind the call. -/
def seek (s : Storage V) (key : Int64) (value : V) (dataVersion : Nat) : ItemStatus × V :=
  match s.slot dataVersion key with
  | none => (.notFound, value)
  | some stored => (.found, stored)

/-- `insert`: whether the pair was new, and the storage behind the call. -/
def insert (s : Storage V) (kv : CannonKV V) (dataVersion : Nat) : Bool × Storage V :=
  ((s.slot dataVersion kv.key).isNone,
    s.withSlot dataVersion (Overlay.put CannonKV.key CannonKV.value (s.slot dataVersion) kv))

def clearData (s : Storage V) (dataVersion : Nat) : Storage V := s.withSlot dataVersion fun _ => none

end Storage

/-! ## `CannonHandler` -/

namespace CannonHandler

variable {V : Type}

def get [Zero V] (s : Storage V) (keys : List Int64) (dataVersion : Nat) : CannonResponse V where
  status := .ok
  values := keys.map fun key =>
    let (ret, value) := s.seek key (ValueItem.init V).value dataVersion
    ⟨if ret = .found then .found else .notFound, value⟩

/-- All pairs are inserted, also behind a rejected one. -/
def insert (dataVersion : Nat) : List (CannonKV V) → Storage V → Bool × Storage V
  | [], s => (true, s)
  | kv :: kvs, s =>
      let (inserted, s) := s.insert kv dataVersion
      let (ret, s) := insert dataVersion kvs s
      (inserted && ret, s)

def clearData (s : Storage V) (dataVersion : Nat) : Bool × Storage V :=
  (true, s.clearData dataVersion)

end CannonHandler

/-! ## Slots -/

section Slots

variable {V : Type} (s : Storage V) (dataVersion : Nat)

theorem getIndex_val (dataVersion : Nat) : (getIndex dataVersion).val = dataVersion % 2 :=
  Nat.and_one_is_mod dataVersion

/-- Two versions in a row use different slots. -/
theorem getIndex_succ_ne (dataVersion : Nat) : getIndex (dataVersion + 1) ≠ getIndex dataVersion := by
  intro same
  have values := congrArg Fin.val same
  rw [getIndex_val, getIndex_val] at values
  omega

@[simp] theorem slot_withSlot (store : Store V) :
    (s.withSlot dataVersion store).slot dataVersion = store :=
  Function.update_self _ _ _

theorem slot_withSlot_of_ne {other : Nat} (different : getIndex other ≠ getIndex dataVersion)
    (store : Store V) : (s.withSlot dataVersion store).slot other = s.slot other :=
  Function.update_of_ne different _ _

/-- Inserting a batch lays it under the slot of the version, and is accepted
exactly when its keys are new. -/
theorem handler_insert_spec (kvs : List (CannonKV V)) :
    ((CannonHandler.insert dataVersion kvs s).1 = true ↔
      Overlay.Fresh CannonKV.key (s.slot dataVersion) kvs) ∧
    (CannonHandler.insert dataVersion kvs s).2.slot dataVersion =
      Overlay.overlay CannonKV.key CannonKV.value (s.slot dataVersion) kvs ∧
    ∀ other, getIndex other ≠ getIndex dataVersion →
      (CannonHandler.insert dataVersion kvs s).2.slot other = s.slot other := by
  induction kvs generalizing s with
  | nil => simp [CannonHandler.insert]
  | cons kv kvs ih =>
      obtain ⟨accepted, laid, frame⟩ := ih (s.insert kv dataVersion).2
      simp only [CannonHandler.insert, Bool.and_eq_true, accepted, laid]
      simp only [Storage.insert, slot_withSlot, Option.isNone_iff_eq_none, Overlay.overlay_put]
      refine ⟨Overlay.fresh_cons.symm, trivial, ?_⟩
      intro other different
      exact (frame other different).trans (slot_withSlot_of_ne s dataVersion different _)

/-- The item that answers a lookup. -/
def itemOf [Zero V] : Option V → ValueItem V
  | some value => ⟨.found, value⟩
  | none => ⟨.notFound, 0⟩

/-- A query answers every key from the slot of its version. -/
theorem handler_get_values [Zero V] (keys : List Int64) :
    (CannonHandler.get s keys dataVersion).values =
      keys.map fun key => itemOf (s.slot dataVersion key) := by
  apply List.map_congr_left
  intro key _
  cases stored : s.slot dataVersion key with
  | none => simp [Storage.seek, stored, itemOf, ValueItem.init]
  | some value => simp [Storage.seek, stored, itemOf]

end Slots

end CppProject.CannonProxy
