import CppProject.Cannon.Calls
import CppProject.Cannon.KVSchema
import CppProject.Cannon.Storage

/-!
# The cannon server

`main` reads the sizes of the schema, loads a directory into a storage of these sizes, and serves
it if all of it has been read.  What the clients see then are the records of the files, wherever
they stand in the directory.
-/

namespace CppProject.Cannon

open Library Records

/-! ## `main` -/

/-- How `main` goes on behind `load`. -/
inductive Start where
  -- an exception of `KVSchema::KVSchema`, or one that leaves `load`
  | schemaError (error : SchemaError)
  | loadError (thrown : Thrown)
  -- `exit(-1)`
  | exited
  -- `server.serve()`
  | serving (store : ImmutableHashMap)

/-- `main`, from the tree of the schema file and what is at the path of the data. -/
def main (maxSize : Nat) (hash : List Byte → Nat) (kvSchema : Ptree) (kvPath : Path) : Start :=
  match KVSchema.construct kvSchema with
  | .error error => .schemaError error
  | .ok schema =>
      match Storage.load maxSize hash (ImmutableHashMap.ofSizes schema.keySize schema.valueSize) kvPath with
      | .error thrown => .loadError thrown
      | .ok (false, _) => .exited
      | .ok (true, store) => .serving store

variable {maxSize : Nat} {hash : List Byte → Nat}

/-- A server that starts has loaded every file of a directory. -/
theorem main_serving {kvSchema : Ptree} {kvPath : Path} {store : ImmutableHashMap}
    (serves : main maxSize hash kvSchema kvPath = .serving store) :
    ∃ schema entries, KVSchema.construct kvSchema = .ok schema ∧ kvPath = .directory entries ∧
      entries.all Entry.isReadable = true ∧
      ImmutableHashMap.loadKvs hash (ImmutableHashMap.ofSizes schema.keySize schema.valueSize)
        (Storage.allBytes entries) = .ok store := by
  unfold main at serves
  split at serves
  next => cases serves
  next schema accepted =>
      refine ⟨schema, ?_⟩
      split at serves
      next => cases serves
      next => cases serves
      next loaded load =>
          cases serves
          cases kvPath with
          | missing => cases load
          | notDirectory => cases load
          | failing => cases load
          | directory entries =>
              rw [Storage.load_directory, Storage.tryLoad_directory] at load
              split at load
              next => cases load
              next =>
                  split at load
                  next all =>
                      refine ⟨entries, accepted, rfl, all, ?_⟩
                      rw [Storage.frontBytes_all all] at load
                      cases run : ImmutableHashMap.loadKvs hash
                          (ImmutableHashMap.ofSizes schema.keySize schema.valueSize)
                          (Storage.allBytes entries) with
                      | error fault =>
                          rw [run] at load
                          cases load
                      | ok after =>
                          rw [run] at load
                          cases load
                          rfl
                  next => cases load

/-! ## The records of a directory -/

/-- The records of a file, which holds whole ones. -/
def fileRecords (keySize valueSize : Nat) (entry : Entry) : List ((_ : List Byte) × List Byte) :=
  ImmutableHashMap.association keySize valueSize (entry.bytes.length / (keySize + valueSize)) entry.bytes

def directoryRecords (keySize valueSize : Nat) (entries : List Entry) :
    List ((_ : List Byte) × List Byte) :=
  entries.flatMap (fileRecords keySize valueSize)

/-- The number of records of a directory. -/
def recordCount (recordSize : Nat) (entries : List Entry) : Nat :=
  (entries.map fun entry => entry.bytes.length / recordSize).sum

variable {keySize valueSize : Nat} {entries order : List Entry}

theorem association_add {first : Nat} {front : List Byte} (whole : front.length = first * (keySize + valueSize))
    (second : Nat) (back : List Byte) :
    ImmutableHashMap.association keySize valueSize (first + second) (front ++ back) =
      ImmutableHashMap.association keySize valueSize first front ++
        ImmutableHashMap.association keySize valueSize second back := by
  simp only [ImmutableHashMap.association_eq_map, records_add whole, List.map_append]

/-- The files one behind the other are a table of whole records, which are those of the files. -/
theorem allBytes_records (whole : ∀ entry ∈ entries, keySize + valueSize ∣ entry.bytes.length) :
    (Storage.allBytes entries).length = recordCount (keySize + valueSize) entries * (keySize + valueSize) ∧
      ImmutableHashMap.association keySize valueSize (recordCount (keySize + valueSize) entries)
        (Storage.allBytes entries) = directoryRecords keySize valueSize entries := by
  induction entries with
  | nil => exact ⟨(Nat.zero_mul _).symm, rfl⟩
  | cons entry entries ih =>
      obtain ⟨here, rest⟩ := List.forall_mem_cons.mp whole
      obtain ⟨length, records⟩ := ih rest
      have own := (Nat.div_mul_cancel here).symm
      have bytes : Storage.allBytes (entry :: entries) = entry.bytes ++ Storage.allBytes entries := rfl
      have count : recordCount (keySize + valueSize) (entry :: entries) =
          entry.bytes.length / (keySize + valueSize) + recordCount (keySize + valueSize) entries :=
        List.sum_cons
      rw [bytes, count]
      refine ⟨?_, ?_⟩
      · rw [List.length_append, Nat.add_mul, ← own, length]
      · rw [association_add own, records]
        rfl

theorem directoryRecords_perm (perm : order.Perm entries) :
    (directoryRecords keySize valueSize order).Perm (directoryRecords keySize valueSize entries) :=
  perm.flatMap_right _

/-! ## Starting -/

/-- A directory of readable files with whole records, which fit into a vector of bytes. -/
structure Complete (maxSize keySize valueSize : Nat) (entries : List Entry) : Prop where
  readable : entries.all Entry.isReadable = true
  whole : ∀ entry ∈ entries, keySize + valueSize ∣ entry.bytes.length
  room : (Storage.allBytes entries).length ≤ maxSize
  small : (Storage.allBytes entries).length < 2 ^ 63

theorem Complete.perm (complete : Complete maxSize keySize valueSize entries) (perm : order.Perm entries) :
    Complete maxSize keySize valueSize order := by
  have same : (Storage.allBytes order).length = (Storage.allBytes entries).length :=
    (perm.flatMap_right Entry.bytes).length_eq
  refine ⟨?_, fun entry member => complete.whole entry (perm.mem_iff.mp member),
    same ▸ complete.room, same ▸ complete.small⟩
  rw [List.all_eq_true]
  exact fun entry member => List.all_eq_true.mp complete.readable entry (perm.mem_iff.mp member)

/-- A complete directory is loaded and served, unless the sizes add up to zero. -/
theorem main_complete {kvSchema : Ptree} {schema : KVSchema} (accepted : KVSchema.construct kvSchema = .ok schema)
    (positive : schema.keySize + schema.valueSize ≠ 0)
    (complete : Complete maxSize schema.keySize.toNat schema.valueSize.toNat entries) :
    ∃ store, main maxSize hash kvSchema (.directory entries) = .serving store ∧
      ImmutableHashMap.loadKvs hash (ImmutableHashMap.ofSizes schema.keySize schema.valueSize)
        (Storage.allBytes entries) = .ok store := by
  obtain ⟨store, loads⟩ :=
    ImmutableHashMap.loadKvs_whole hash positive (allBytes_records complete.whole).1 complete.small
  have none_unopenable : Storage.unopenableCount entries = 0 := by
    refine List.countP_eq_zero.mpr fun entry member unopenable => ?_
    rw [List.all_eq_true.mp complete.readable entry member] at unopenable
    cases unopenable
  have total := Storage.totalSize_eq entries
  rw [none_unopenable] at total
  have room := complete.room
  have fits : ¬(maxSize < (Storage.totalSize entries).toNat ∨
      maxSize < (Storage.frontBytes entries).length) := by
    rw [Storage.frontBytes_all complete.readable]
    omega
  have loaded : Storage.load maxSize hash
      (ImmutableHashMap.ofSizes schema.keySize schema.valueSize) (.directory entries) = .ok (true, store) := by
    rw [Storage.load_directory, Storage.tryLoad_directory, if_neg fits, if_pos complete.readable,
      Storage.frontBytes_all complete.readable, loads]
    rfl
  refine ⟨store, ?_, loads⟩
  rw [main, accepted]
  simp only [loaded]

namespace Interface

open Library.Wire

/-- What the client gets for a list of keys from the files of a directory. -/
def directoryResponse (keySize valueSize : Nat) (entries : List Entry) (qs : List (List Byte)) : CannonResponse :=
  (ofResponse (CannonHandler.respond valueSize
    (qs.map fun q => (directoryRecords keySize valueSize entries).dlookup q))).whole

/-- A server that is started on a complete directory with distinct keys serves it, and its clients
see the records of the files: every key of every request is answered from them, in whatever order
the system lists the files and however the records are spread over them.  Without key bytes a
request is never left or its answer divides by zero, and with sizes that add up to `2 ^ 64` the
load divides by zero. -/
theorem directory_over_the_wire {B D : Type} (P : Protocol B D Byte) (maxSize : Nat) (hash : List Byte → Nat)
    {kvSchema : Ptree} {schema : KVSchema} (accepted : KVSchema.construct kvSchema = .ok schema)
    (key_pos : 1 ≤ schema.keySize) (sizes : schema.keySize.toNat + schema.valueSize.toNat ≠ 2 ^ 64)
    {entries : List Entry} (complete : Complete maxSize schema.keySize.toNat schema.valueSize.toNat entries)
    (distinct : (directoryRecords schema.keySize.toNat schema.valueSize.toNat entries).NodupKeys)
    {order : List Entry} (perm : order.Perm entries) (requests : List (List (List Byte)))
    (sized : ∀ qs ∈ requests, Sized schema.keySize.toNat schema.valueSize.toNat qs) :
    ∃ store, main maxSize hash kvSchema (.directory order) = .serving store ∧
      ∀ (σ : Type) (iface : CannonIf σ), Serves hash store iface → ∀ s, ∃ replies,
        serveCalls (CannonProcessor.process P iface) requests.length
          (requests.flatMap fun qs => CannonClient.sendGet P (requestOf qs)) s = some (replies, [], s) ∧
        receiveAll (requests.map fun _ => CannonClient.recvGet P CannonResponse.init) replies =
          some (requests.map fun qs =>
            .ok (directoryResponse schema.keySize.toNat schema.valueSize.toNat entries qs), []) := by
  have positive := (ImmutableHashMap.sum_ne_zero_iff key_pos).mpr sizes
  obtain ⟨store, starts, loads⟩ :=
    @main_complete maxSize hash order kvSchema schema accepted positive (complete.perm perm)
  refine ⟨store, starts, fun σ iface serves s => ?_⟩
  obtain ⟨key_size, value_size⟩ : store.keySize = schema.keySize.toNat ∧
      store.valueSize = schema.valueSize.toNat := ImmutableHashMap.loadKvs_sizes loads
  have key_bytes : 0 < store.keySize := key_size ▸ UInt64.le_iff_toNat_le.mp key_pos
  obtain ⟨length, records⟩ := allBytes_records (complete.perm perm).whole
  have moved := @directoryRecords_perm schema.keySize.toNat schema.valueSize.toNat _ _ perm
  have distinct' := (List.perm_nodupKeys moved).mpr distinct
  have same : ∀ qs ∈ requests, Sized store.keySize store.valueSize qs := by
    rw [key_size, value_size]
    exact sized
  have each : ∀ qs ∈ requests, ∀ q ∈ qs, ImmutableHashMap.seekValue hash store q =
      .ok ((directoryRecords schema.keySize.toNat schema.valueSize.toNat entries).dlookup q) := by
    intro qs _ q _
    have found := ImmutableHashMap.seekValue_eq_dlookup length (complete.perm perm).small
      (by rwa [records]) loads q
    rwa [records, List.perm_dlookup q distinct' moved] at found
  have session := stored_session P serves key_bytes same each s
  rwa [value_size] at session

/-- A schema of one key and one value, and two files, which are listed the other way round. -/
theorem directory_over_the_wire_two_files :
    ∃ store replies,
      main 1000 (fun _ => 3) (.node [] [("key", .node [] [("", .node [] [("type", .node "i32".toList [])])]),
          ("value", .node [] [("", .node [] [("type", .node "i32".toList [])])])])
        (.directory [.readable ⟨[2, 0, 0, 0, 9, 9, 9, 9], by decide⟩,
          .readable ⟨[1, 0, 0, 0, 7, 7, 7, 7], by decide⟩]) = .serving store ∧
      serveCalls (CannonProcessor.process binaryProtocol (ofStore (fun _ => 3) store)) 1
          ([[[2, 0, 0, 0], [5, 0, 0, 0]]].flatMap fun qs =>
            CannonClient.sendGet binaryProtocol (requestOf qs)) () = some (replies, [], ()) ∧
      receiveAll [CannonClient.recvGet binaryProtocol CannonResponse.init] replies =
        some ([.ok ⟨1, [0, 1], [9, 9, 9, 9, 0, 0, 0, 0], true, true, true⟩], []) := by
  have accepted : KVSchema.construct (.node [] [("key", .node [] [("", .node [] [("type", .node "i32".toList [])])]),
      ("value", .node [] [("", .node [] [("type", .node "i32".toList [])])])]) = .ok ⟨4, 4⟩ := by decide
  have complete : Complete 1000 4 4 [.readable ⟨[1, 0, 0, 0, 7, 7, 7, 7], by decide⟩,
      .readable ⟨[2, 0, 0, 0, 9, 9, 9, 9], by decide⟩] :=
    ⟨rfl, List.forall_mem_cons.mpr ⟨by decide, List.forall_mem_cons.mpr ⟨by decide, List.forall_mem_nil _⟩⟩, by decide, by decide⟩
  have distinct : (directoryRecords 4 4 [.readable ⟨[1, 0, 0, 0, 7, 7, 7, 7], by decide⟩,
      .readable ⟨[2, 0, 0, 0, 9, 9, 9, 9], by decide⟩]).keys.Nodup := by decide
  have sized : ∀ qs ∈ [[[2, 0, 0, 0], [5, 0, 0, 0]]], Sized 4 4 qs :=
    List.forall_mem_cons.mpr ⟨⟨by decide, by decide, by decide⟩, List.forall_mem_nil _⟩
  obtain ⟨store, starts, served⟩ := directory_over_the_wire binaryProtocol 1000 (fun _ => 3) accepted
    (by decide) (by decide) complete distinct (List.Perm.swap _ _ []) [[[2, 0, 0, 0], [5, 0, 0, 0]]] sized
  obtain ⟨replies, here, received⟩ := served Unit _ (serves_ofStore _ store) ()
  exact ⟨store, replies, starts, here, received⟩

end Interface

end CppProject.Cannon
