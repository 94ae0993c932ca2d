import CppProject.Cannon.Loading
import Mathlib.Data.List.TakeWhile

/-!
# `Storage::load`

The files of a directory are measured, room is reserved for all of them, and they are read one
behind the other.  The size of a file that cannot be opened is -1.  Only the errors of the file
system are caught.
-/

namespace CppProject.Cannon

open Library Library.Checked

/-- A file that can be read; its size is a `streamoff`. -/
structure KvFile where
  bytes : List Byte
  size_lt : bytes.length < 2 ^ 63

/-- An entry of a directory. -/
inductive Entry where
  | readable (file : KvFile)
  | unopenable

def Entry.isReadable : Entry → Bool
  | .readable _ => true
  | .unopenable => false

def Entry.bytes : Entry → List Byte
  | .readable file => file.bytes
  | .unopenable => []

/-- What is at a path. -/
inductive Path where
  | missing
  | notDirectory
  | failing
  | directory (entries : List Entry)

/-- What ends a computation without a value: a fault, or an exception. -/
inductive Thrown where
  | fault (fault : Fault)
  | lengthError
  | filesystemError
  deriving DecidableEq, Repr

namespace Storage

/-- `get_file_size` -/
def getFileSize : Entry → Int
  | .readable file => file.bytes.length
  | .unopenable => -1

/-- The sum of the sizes, as a `size_t`. -/
def totalSize (entries : List Entry) : UInt64 :=
  entries.foldl (fun total entry => total + UInt64.ofInt (getFileSize entry)) 0

section Load

-- `max_size()` of a vector of bytes
variable (maxSize : Nat)

/-- `kvs.reserve(size)`, and what `kvs.resize(size)` checks first. -/
def checkLength (size : Nat) : Except Thrown Unit :=
  if maxSize < size then .error .lengthError else .ok ()

def liftFault {α : Type} : Except Fault α → Except Thrown α
  | .ok value => .ok value
  | .error fault => .error (.fault fault)

/-- `load_kv_file`: whether the file has been read, and the bytes. -/
def loadKvFile (entry : Entry) (kvs : List Byte) : Except Thrown (Bool × List Byte) :=
  match entry with
  | .unopenable => .ok (false, kvs)
  | .readable file => do
      let currentKvsPos := kvs.length
      checkLength maxSize (kvs.length + file.bytes.length)
      let kvs := resize kvs (kvs.length + file.bytes.length) 0
      let kvs ← liftFault (writeBlock kvs currentKvsPos file.bytes)
      .ok (true, kvs)

/-- The loop over the entries that loads them. -/
def loadFiles : List Entry → List Byte → Except Thrown (Bool × List Byte)
  | [], kvs => .ok (true, kvs)
  | entry :: entries, kvs => do
      let (read, kvs) ← loadKvFile maxSize entry kvs
      if read then loadFiles entries kvs else .ok (false, kvs)

variable (hash : List Byte → Nat) (store : ImmutableHashMap)

/-- The `try` block of `load`. -/
def tryLoad : Path → Except Thrown (Bool × ImmutableHashMap)
  | .missing => .ok (false, store)
  | .notDirectory => .ok (false, store)
  | .failing => .error .filesystemError
  | .directory entries => do
      checkLength maxSize (totalSize entries).toNat
      let (read, kvs) ← loadFiles maxSize entries []
      if read then
        let store ← liftFault (store.loadKvs hash kvs)
        .ok (true, store)
      else .ok (false, store)

/-- `load`: the returned value and the store.  No error of the file system comes from
`load_kvs`, so the store is unchanged when one is caught. -/
def load (path : Path) : Except Thrown (Bool × ImmutableHashMap) :=
  match tryLoad maxSize hash store path with
  | .error .filesystemError => .ok (false, store)
  | outcome => outcome

end Load

/-! ## What `load` is meant to do -/

/-- The bytes of the files, in iteration order. -/
def allBytes (entries : List Entry) : List Byte := entries.flatMap Entry.bytes

/-- When every entry is readable the bytes of the files are loaded and `true` is returned;
otherwise `false` is returned, and the store answers as before. -/
structure Clean (maxSize : Nat) (hash : List Byte → Nat) (store : ImmutableHashMap)
    (entries : List Entry) : Prop where
  succeeds : entries.all Entry.isReadable = true → ∃ loaded,
    store.loadKvs hash (allBytes entries) = .ok loaded ∧
      load maxSize hash store (.directory entries) = .ok (true, loaded)
  fails : entries.all Entry.isReadable = false → ∃ after,
    load maxSize hash store (.directory entries) = .ok (false, after) ∧
      ∀ key, after.seekValue hash key = store.seekValue hash key

/-- The bytes that are read before an entry cannot be opened. -/
def frontBytes (entries : List Entry) : List Byte := allBytes (entries.takeWhile Entry.isReadable)

/-- The number of entries that cannot be opened. -/
def unopenableCount (entries : List Entry) : Nat := entries.countP fun entry => !Entry.isReadable entry

/-! ## The sizes of the files -/

theorem add_ofInt (total : UInt64) (size : Int) :
    ((total + UInt64.ofInt size).toNat : Int) = (total.toNat + size) % 2 ^ 64 := by
  have whole : ((UInt64.ofInt size).toNat : Int) = size % 2 ^ 64 := by
    have inside : (size % 2 ^ 64).toNat < 2 ^ 64 := by omega
    rw [UInt64.ofInt, UInt64.toNat_ofNat_of_lt' inside]
    omega
  rw [UInt64.toNat_add]
  omega

theorem getFileSize_eq (entry : Entry) :
    getFileSize entry = (entry.bytes.length : Int) - if entry.isReadable then 0 else 1 := by
  cases entry with
  | readable file => exact (Int.sub_zero _).symm
  | unopenable => rfl

/-- Every entry that cannot be opened takes one from the sum, which wraps around. -/
theorem totalSize_eq (entries : List Entry) :
    ((totalSize entries).toNat : Int) =
      ((allBytes entries).length - unopenableCount entries : Int) % 2 ^ 64 := by
  have fold (entries : List Entry) (total : UInt64) :
      ((entries.foldl (fun total entry => total + UInt64.ofInt (getFileSize entry)) total).toNat : Int) =
        (total.toNat + ((allBytes entries).length - unopenableCount entries : Int)) % 2 ^ 64 := by
    induction entries generalizing total with
    | nil =>
        have := total.toNat_lt
        change (total.toNat : Int) = (total.toNat + (0 - 0)) % 2 ^ 64
        omega
    | cons entry entries ih =>
        have bytes : (allBytes (entry :: entries)).length =
            entry.bytes.length + (allBytes entries).length := by
          rw [allBytes, List.flatMap_cons, List.length_append]
          rfl
        have count : unopenableCount (entry :: entries) =
            unopenableCount entries + if entry.isReadable then 0 else 1 := by
          rw [unopenableCount, List.countP_cons, unopenableCount]
          cases entry <;> rfl
        rw [List.foldl_cons, ih, add_ofInt, getFileSize_eq, bytes, count]
        split <;> omega
  have all := fold entries 0
  rw [UInt64.toNat_zero] at all
  rw [totalSize, all]
  congr 1
  exact Int.zero_add _

/-! ## Reading the files -/

section Load

variable {maxSize : Nat} {hash : List Byte → Nat} {store : ImmutableHashMap}

theorem loadKvFile_readable (file : KvFile) (kvs : List Byte) :
    loadKvFile maxSize (.readable file) kvs =
      if maxSize < kvs.length + file.bytes.length then .error .lengthError
      else .ok (true, kvs ++ file.bytes) := by
  have room : (resize kvs (kvs.length + file.bytes.length) 0).length =
      kvs.length + file.bytes.length := resize_length _ _ _
  have written : splice (resize kvs (kvs.length + file.bytes.length) 0) kvs.length file.bytes =
      kvs ++ file.bytes := by
    have front : (resize kvs (kvs.length + file.bytes.length) 0).take kvs.length = kvs := by
      rw [resize, List.take_of_length_le (Nat.le_add_right _ _), List.take_left]
    rw [splice, front, List.drop_of_length_le room.le, List.append_nil]
  rw [loadKvFile, checkLength]
  split
  · rfl
  · change (liftFault (writeBlock _ _ _) >>= _) = _
    rw [writeBlock_of_le room.ge, written]
    rfl

theorem frontBytes_readable (file : KvFile) (entries : List Entry) :
    frontBytes (.readable file :: entries) = file.bytes ++ frontBytes entries := rfl

/-- The files are read up to the first entry that cannot be opened, unless they are too long. -/
theorem loadFiles_eq (entries : List Entry) {kvs : List Byte} (fits : kvs.length ≤ maxSize) :
    loadFiles maxSize entries kvs =
      if maxSize < kvs.length + (frontBytes entries).length then .error .lengthError
      else .ok (entries.all Entry.isReadable, kvs ++ frontBytes entries) := by
  induction entries generalizing kvs with
  | nil =>
      have nothing : frontBytes [] = [] := rfl
      rw [nothing, List.length_nil, Nat.add_zero, if_neg (Nat.not_lt.mpr fits), List.append_nil]
      rfl
  | cons entry entries ih =>
      cases entry with
      | unopenable =>
          have nothing : frontBytes (.unopenable :: entries) = [] := rfl
          rw [nothing, List.length_nil, Nat.add_zero, if_neg (Nat.not_lt.mpr fits), List.append_nil]
          rfl
      | readable file =>
          rw [loadFiles, loadKvFile_readable, frontBytes_readable, List.length_append, ← Nat.add_assoc]
          split
          next long =>
            rw [if_pos (Nat.lt_add_right _ long)]
            rfl
          next short =>
            have fits' : (kvs ++ file.bytes).length ≤ maxSize := by
              rw [List.length_append]
              exact Nat.not_lt.mp short
            change loadFiles maxSize entries (kvs ++ file.bytes) = _
            rw [ih fits', List.length_append, List.append_assoc]
            rfl

/-- What the `try` block does with the entries of a directory. -/
theorem tryLoad_directory (entries : List Entry) :
    tryLoad maxSize hash store (.directory entries) =
      if maxSize < (totalSize entries).toNat ∨ maxSize < (frontBytes entries).length then
        .error .lengthError
      else if entries.all Entry.isReadable then
        liftFault (store.loadKvs hash (frontBytes entries)) >>= fun loaded => .ok (true, loaded)
      else .ok (false, store) := by
  have files := @loadFiles_eq maxSize entries [] (Nat.zero_le _)
  rw [List.length_nil, Nat.zero_add, List.nil_append] at files
  rw [tryLoad, checkLength, files]
  by_cases large : maxSize < (totalSize entries).toNat
  · rw [if_pos large, if_pos (Or.inl large)]
    rfl
  by_cases long : maxSize < (frontBytes entries).length
  · rw [if_neg large, if_pos long, if_pos (Or.inr long)]
    rfl
  rw [if_neg large, if_neg long, if_neg (not_or.mpr ⟨large, long⟩)]
  rfl

/-- Nothing is caught that the entries of a directory have thrown. -/
theorem load_directory (entries : List Entry) :
    load maxSize hash store (.directory entries) = tryLoad maxSize hash store (.directory entries) := by
  unfold load
  split
  next caught =>
    rw [tryLoad_directory] at caught
    split at caught
    · cases caught
    · split at caught
      · cases loads : store.loadKvs hash (frontBytes entries) <;> rw [loads] at caught <;> cases caught
      · cases caught
  next => rfl

theorem frontBytes_all {entries : List Entry} (all : entries.all Entry.isReadable = true) :
    frontBytes entries = allBytes entries := by
  rw [frontBytes, List.takeWhile_eq_self_iff.mpr (List.all_eq_true.mp all)]

/-- A store that has not been loaded takes any number of whole records. -/
theorem loads_fresh {n : Nat} {kvs : List Byte} (fresh : store.indexes = [])
    (fitting : ImmutableHashMap.Fitting store n kvs) :
    ∃ loaded, store.loadKvs hash kvs = .ok loaded := by
  have clear : ImmutableHashMap.Clear hash store n kvs := by
    intro entry _ l _
    rw [ImmutableHashMap.leftover, fresh]
    rfl
  obtain ⟨loaded, run, _⟩ := clear.load fitting
  exact ⟨loaded, run⟩

/-- `load` reports success and failure cleanly exactly when the sum of the sizes, modulo `2 ^ 64`,
and the bytes in front of the first entry that cannot be opened fit into a vector, and when the
store takes the bytes if all entries are readable.  A fresh store takes whole records. -/
theorem load_clean (maxSize : Nat) (hash : List Byte → Nat) (store : ImmutableHashMap)
    (entries : List Entry) :
    (Clean maxSize hash store entries ↔
        ((allBytes entries).length - unopenableCount entries : Int) % 2 ^ 64 ≤ maxSize ∧
          (frontBytes entries).length ≤ maxSize ∧
          (entries.all Entry.isReadable = true →
            ∃ loaded, store.loadKvs hash (allBytes entries) = .ok loaded)) ∧
      ∀ n, store.indexes = [] → ImmutableHashMap.Fitting store n (allBytes entries) →
        ∃ loaded, store.loadKvs hash (allBytes entries) = .ok loaded := by
  refine ⟨?_, fun n fresh fitting => loads_fresh fresh fitting⟩
  rw [← totalSize_eq]
  have run := (@load_directory maxSize hash store entries).trans (tryLoad_directory entries)
  constructor
  · rintro ⟨succeeds, fails⟩
    have inside : ¬(maxSize < (totalSize entries).toNat ∨ maxSize < (frontBytes entries).length) := by
      intro large
      rw [if_pos large] at run
      cases all : entries.all Entry.isReadable with
      | true =>
          obtain ⟨loaded, _, returns⟩ := succeeds all
          cases run.symm.trans returns
      | false =>
          obtain ⟨after, returns, _⟩ := fails all
          cases run.symm.trans returns
    refine ⟨by omega, by omega, fun all => ?_⟩
    obtain ⟨loaded, takes, _⟩ := succeeds all
    exact ⟨loaded, takes⟩
  · rintro ⟨total, front, takes⟩
    rw [if_neg (by omega)] at run
    refine ⟨fun all => ?_, fun some => ?_⟩
    · obtain ⟨loaded, loads⟩ := takes all
      rw [if_pos all, frontBytes_all all, loads] at run
      exact ⟨loaded, loads, run⟩
    · rw [some] at run
      exact ⟨store, run, fun key => rfl⟩

/-- A directory with one entry, which cannot be opened: the size -1 is too large to reserve. -/
theorem load_unopenable :
    load (2 ^ 63 - 1) (fun _ => 3) (ImmutableHashMap.ofSizes 8 8) (.directory [.unopenable]) =
        .error .lengthError ∧
      ¬Clean (2 ^ 63 - 1) (fun _ => 3) (ImmutableHashMap.ofSizes 8 8) [.unopenable] := by
  have escapes : load (2 ^ 63 - 1) (fun _ => 3) (ImmutableHashMap.ofSizes 8 8)
      (.directory [.unopenable]) = .error .lengthError := by rfl
  refine ⟨escapes, fun clean => ?_⟩
  obtain ⟨after, returns, _⟩ := clean.fails (by rfl)
  cases escapes.symm.trans returns

end Load

end Storage

end CppProject.Cannon
