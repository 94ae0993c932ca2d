import CppProject.Cannon.Interface
import CppProject.Library.BinaryProtocol

/-!
# Calls of the cannon server over the wire

Client and server share a connection: the client sends any number of calls, the processor
answers them one after another, and the client reads the replies.  What the client gets
is what the handler says, and for a loaded store that is the content of its table.
-/

namespace CppProject.Cannon.Interface

open Library Library.Wire

section Connection

variable {B D σ : Type}

/-- The calls on a connection, with valid sizes, are answered in the order in which they were
sent, whatever handler serves them and however many were sent ahead of the replies: the
client reads from each reply what the handler says to that call in the state behind the
earlier ones.  A method that the service does not have is answered with an exception and
leaves the handler's state alone; what stands behind the calls on the two streams stays
there. -/
theorem calls_answered_in_order (P : Protocol B D Byte) (iface : CannonIf σ) (calls : List (Call B))
    (valid : ∀ call ∈ calls, call.Valid P iface) (s : σ) (more later : List B) :
    ∃ replies,
      serveCalls (CannonProcessor.process P iface) calls.length
          ((calls.map (Call.exchange P iface)).flatMap Exchange.request ++ more) s =
        some (replies, more, (answerAll (calls.map (Call.exchange P iface)) s).2) ∧
      receiveAll ((calls.map (Call.exchange P iface)).map Exchange.recv) (replies ++ later) =
        some ((answerAll (calls.map (Call.exchange P iface)) s).1, later) := by
  have works : ∀ e ∈ calls.map (Call.exchange P iface), e.Works (CannonProcessor.process P iface) := by
    intro e member
    obtain ⟨call, called, rfl⟩ := List.mem_map.mp member
    exact Call.works (valid call called)
  have answered := exchanges works s more later
  rwa [List.length_map] at answered

/-- A handler that counts its calls and sends the keys back. -/
def echo : CannonIf Nat := ⟨fun _ req count => (.ok ⟨0, [0], req.keys, false, false, false⟩, count + 1)⟩

/-- Two calls of `get` around a call of a method that does not exist, in the binary protocol. -/
theorem calls_answered_in_order_three :
    ∃ replies,
      serveCalls (CannonProcessor.process binaryProtocol echo) 3
          (([.get ⟨[1, 2], false⟩ CannonResponse.init,
            .other "put".toList (binaryProtocol.fieldCells [] ++ binaryProtocol.stop),
            .get ⟨[3], false⟩ CannonResponse.init].map
              (Call.exchange binaryProtocol echo)).flatMap Exchange.request ++ []) 0 =
        some (replies, [], 2) ∧
      receiveAll [CannonClient.recvGet binaryProtocol CannonResponse.init,
          CannonClient.recvGet binaryProtocol CannonResponse.init,
          CannonClient.recvGet binaryProtocol CannonResponse.init] (replies ++ []) =
        some ([.ok ⟨0, [0], [1, 2], true, true, true⟩, .error ⟨1, "Invalid method name: 'put'".toList⟩,
          .ok ⟨0, [0], [3], true, true, true⟩], []) := by
  have get_valid : ∀ keys : List Byte, keys.length < sizeLimit →
      (Call.get ⟨keys, false⟩ CannonResponse.init).Valid binaryProtocol echo :=
    fun keys short => ⟨short, fun _ => ⟨(by decide : 1 < sizeLimit), short⟩⟩
  have put_valid : (Call.other "put".toList (binaryProtocol.fieldCells [] ++ binaryProtocol.stop)).Valid
      binaryProtocol echo :=
    ⟨by decide, plain_of_all (by decide) (by decide), plain_of_all (by decide) (by decide),
      .struct (List.forall_mem_nil _) (List.forall_mem_nil _)⟩
  exact calls_answered_in_order binaryProtocol echo
    [.get ⟨[1, 2], false⟩ CannonResponse.init,
      .other "put".toList (binaryProtocol.fieldCells [] ++ binaryProtocol.stop),
      .get ⟨[3], false⟩ CannonResponse.init]
    (List.forall_mem_cons.mpr ⟨get_valid [1, 2] (by decide), List.forall_mem_cons.mpr
      ⟨put_valid, List.forall_mem_cons.mpr ⟨get_valid [3] (by decide), List.forall_mem_nil _⟩⟩⟩) 0 [] []

/-- A call that is cut off anywhere is refused before the handler sees it, and a reply that
is cut off anywhere gives the client no result. -/
theorem cut_off_messages_refused (P : Protocol B D Byte) (iface : CannonIf σ) (call : Call B)
    (valid : call.Valid P iface) :
    (∀ kept cut, (call.exchange P iface).request = kept ++ cut → cut ≠ [] →
      (CannonProcessor.process P iface).run kept = none) ∧
    ∀ s, ∃ serve, (CannonProcessor.process P iface).run (call.exchange P iface).request = some (serve, []) ∧
      ∀ kept cut, (serve s).1 = kept ++ cut → cut ≠ [] → (call.exchange P iface).recv.run kept = none := by
  obtain ⟨serve, takes, each⟩ := Call.works valid
  refine ⟨fun kept cut split missing => takes.cut split missing, fun s => ⟨serve, takes.run_self, ?_⟩⟩
  exact fun kept cut split missing => (each s).1.cut split missing

/-- The call `get` without its last byte, and its reply without its last byte. -/
theorem cut_off_messages_refused_last_byte :
    (CannonProcessor.process binaryProtocol echo).run
      ((Call.get ⟨[1, 2], false⟩ CannonResponse.init).exchange binaryProtocol echo).request.dropLast = none := by
  have valid : (Call.get ⟨[1, 2], false⟩ CannonResponse.init).Valid binaryProtocol echo :=
    ⟨(by decide : 2 < sizeLimit), fun _ => ⟨(by decide : 1 < sizeLimit), (by decide : 2 < sizeLimit)⟩⟩
  exact (cut_off_messages_refused binaryProtocol echo _ valid).1 _ [0] (by decide) (by decide)

end Connection

/-! ## A loaded store behind the wire -/

def statusCode : Status → Int32
  | .ok => 0
  | .partialOk => 1
  | .error => 2

def itemStatusCode : ItemStatus → Int32
  | .found => 0
  | .notFound => 1
  | .error => 2

/-- The response that the handler fills, no flag of which it sets. -/
def ofResponse (res : Cannon.CannonResponse) : CannonResponse :=
  ⟨statusCode res.status, res.valueStatuses.map itemStatusCode, res.values, false, false, false⟩

/-- The interface is the handler of a store, on every request that the handler answers. -/
def Serves {σ : Type} (hash : List Byte → Nat) (store : ImmutableHashMap) (iface : CannonIf σ) : Prop :=
  ∀ req res s, CannonHandler.get hash store ⟨req.keys⟩ = .ok res →
    iface.get CannonResponse.init req s = (.ok (ofResponse res), s)

/-- The handler of a store as an interface.  Where the handler is undefined an exception
stands for whatever it does. -/
def ofStore (hash : List Byte → Nat) (store : ImmutableHashMap) : CannonIf Unit where
  get _ req s :=
    match CannonHandler.get hash store ⟨req.keys⟩ with
    | .ok res => (.ok (ofResponse res), s)
    | .error _ => (.error [], s)

theorem serves_ofStore (hash : List Byte → Nat) (store : ImmutableHashMap) :
    Serves hash store (ofStore hash store) := by
  intro req res s run
  simp only [ofStore, run]

/-- Whole keys with sizes that fit, also in the response. -/
structure Sized (keySize valueSize : Nat) (qs : List (List Byte)) : Prop where
  keys : ∀ q ∈ qs, q.length = keySize
  request : qs.length * keySize < sizeLimit
  response : qs.length * valueSize < sizeLimit

section Store

variable {B D σ : Type}

/-- The request for a list of keys. -/
def requestOf (qs : List (List Byte)) : CannonRequest := ⟨qs.flatten, false⟩

theorem exchange_store {P : Protocol B D Byte} {hash : List Byte → Nat} {store : ImmutableHashMap}
    {iface : CannonIf σ} (serves : Serves hash store iface) {qs : List (List Byte)}
    {res : Cannon.CannonResponse} (run : CannonHandler.get hash store ⟨qs.flatten⟩ = .ok res) (s : σ) :
    ((Call.get (requestOf qs) CannonResponse.init : Call B).exchange P iface).answer s =
      (.ok (ofResponse res).whole, s) := by
  have here := serves (requestOf qs).whole res s run
  simp only [Call.exchange, here]

/-- A store that answers every key of a request responds with what it has stored. -/
theorem get_stored {hash : List Byte → Nat} {store : ImmutableHashMap} {qs : List (List Byte)}
    (key_pos : 0 < store.keySize) (sized : Sized store.keySize store.valueSize qs)
    {table : List Byte → Option (List Byte)}
    (each : ∀ q ∈ qs, ImmutableHashMap.seekValue hash store q = .ok (table q)) :
    CannonHandler.get hash store ⟨qs.flatten⟩ = .ok (CannonHandler.respond store.valueSize (qs.map table)) ∧
      (ofResponse (CannonHandler.respond store.valueSize (qs.map table))).Fits := by
  have answers : ∀ q ∈ qs, ∃ answer, ImmutableHashMap.seekValue hash store q = .ok answer :=
    fun q member => ⟨_, each q member⟩
  have same : qs.map (CannonHandler.stored hash store) = qs.map table :=
    List.map_congr_left fun q member => CannonHandler.stored_eq (each q member)
  have positional := CannonHandler.respond_positional answers
  have run := (CannonHandler.get_eq_ok key_pos sized.keys).mpr ⟨answers, rfl⟩
  rw [same] at positional run
  refine ⟨run, ?_, ?_⟩
  · have fewer := Nat.le_mul_of_pos_right qs.length key_pos
    have few := sized.request
    simp only [ofResponse, List.length_map, positional.statuses_length]
    omega
  · rw [ofResponse, positional.values_length]
    exact sized.response

/-- Requests sent ahead on one connection to a store that answers all their keys. -/
theorem stored_session (P : Protocol B D Byte) {hash : List Byte → Nat} {store : ImmutableHashMap}
    {iface : CannonIf σ} (serves : Serves hash store iface) (key_pos : 0 < store.keySize)
    {requests : List (List (List Byte))} (sized : ∀ qs ∈ requests, Sized store.keySize store.valueSize qs)
    {table : List Byte → Option (List Byte)}
    (each : ∀ qs ∈ requests, ∀ q ∈ qs, ImmutableHashMap.seekValue hash store q = .ok (table q)) (s : σ) :
    ∃ replies,
      serveCalls (CannonProcessor.process P iface) requests.length
        (requests.flatMap fun qs => CannonClient.sendGet P (requestOf qs)) s = some (replies, [], s) ∧
      receiveAll (requests.map fun _ => CannonClient.recvGet P CannonResponse.init) replies =
        some (requests.map fun qs =>
          .ok (ofResponse (CannonHandler.respond store.valueSize (qs.map table))).whole, []) := by
  let exchange := fun qs => (Call.get (requestOf qs) CannonResponse.init : Call B).exchange P iface
  have stored := fun qs asked => get_stored key_pos (sized qs asked) (each qs asked)
  have works : ∀ e ∈ requests.map exchange, e.Works (CannonProcessor.process P iface) := by
    intro e member
    obtain ⟨qs, asked, rfl⟩ := List.mem_map.mp member
    obtain ⟨answered, fits⟩ := stored qs asked
    refine Call.works ⟨?_, fun s => ?_⟩
    · exact (Records.length_flatten_blocks (sized qs asked).keys).trans_lt (sized qs asked).request
    · rw [serves (requestOf qs).whole _ s answered]
      exact fits
  have answers := answerAll_of_answers
    (fun qs asked s => exchange_store (P := P) serves (stored qs asked).1 s) s
  obtain ⟨replies, served, received⟩ := exchanges works s [] []
  refine ⟨replies, ?_, ?_⟩
  · rw [answers, List.append_nil, List.length_map, List.flatMap_map] at served
    exact served
  · rw [answers, List.append_nil, List.map_map] at received
    exact received

end Store

/-- What the client gets for a list of keys from a table: one status for each key, and the
stored bytes or the placeholder at its position. -/
def tableResponse (keySize valueSize n : Nat) (kvs : List Byte) (qs : List (List Byte)) : CannonResponse :=
  (ofResponse (CannonHandler.respond valueSize
    (qs.map fun q => (ImmutableHashMap.association keySize valueSize n kvs).dlookup q))).whole

/-- A table of whole records with distinct keys, loaded by the server, is what its clients
see: of any requests sent ahead on one connection, each is answered with the table's
content at its keys, whatever the hash function, the protocol and the server's threads.
Sizes that add up to `2 ^ 64` are left out, since no table can be loaded then. -/
theorem table_over_the_wire {B D : Type} (P : Protocol B D Byte) (hash : List Byte → Nat)
    (keySize valueSize : UInt64) (n : Nat) (kvs : List Byte) (key_pos : 1 ≤ keySize)
    (sizes : keySize.toNat + valueSize.toNat ≠ 2 ^ 64)
    (whole : kvs.length = n * (keySize.toNat + valueSize.toNat)) (small : kvs.length < 2 ^ 63)
    (distinct : (ImmutableHashMap.association keySize.toNat valueSize.toNat n kvs).NodupKeys)
    (requests : List (List (List Byte))) (sized : ∀ qs ∈ requests, Sized keySize.toNat valueSize.toNat qs) :
    ∃ loaded, ImmutableHashMap.loadKvs hash (ImmutableHashMap.ofSizes keySize valueSize) kvs = .ok loaded ∧
      ∀ (σ : Type) (iface : CannonIf σ), Serves hash loaded iface → ∀ s, ∃ replies,
        serveCalls (CannonProcessor.process P iface) requests.length
          (requests.flatMap fun qs => CannonClient.sendGet P (requestOf qs)) s = some (replies, [], s) ∧
        receiveAll (requests.map fun _ => CannonClient.recvGet P CannonResponse.init) replies =
          some (requests.map fun qs =>
            .ok (tableResponse keySize.toNat valueSize.toNat n kvs qs), []) := by
  have positive := (ImmutableHashMap.sum_ne_zero_iff key_pos).mpr sizes
  obtain ⟨loaded, run⟩ := ImmutableHashMap.loadKvs_whole hash positive whole small
  refine ⟨loaded, run, ?_⟩
  intro σ iface serves s
  obtain ⟨key_size, value_size⟩ : loaded.keySize = keySize.toNat ∧ loaded.valueSize = valueSize.toNat :=
    ImmutableHashMap.loadKvs_sizes run
  have same : ∀ qs ∈ requests, Sized loaded.keySize loaded.valueSize qs := by
    rw [key_size, value_size]
    exact sized
  have key_bytes : 0 < loaded.keySize := key_size ▸ UInt64.le_iff_toNat_le.mp key_pos
  have session := stored_session P serves key_bytes same
    (fun qs _ q _ => ImmutableHashMap.seekValue_eq_dlookup whole small distinct run q) s
  rwa [value_size] at session

/-- Two records, a request for a stored and a missing key, and a second request. -/
theorem table_over_the_wire_two_records :
    ∃ loaded replies,
      ImmutableHashMap.loadKvs (fun _ => 3) (ImmutableHashMap.ofSizes 1 1) [1, 7, 2, 9] = .ok loaded ∧
      serveCalls (CannonProcessor.process binaryProtocol (ofStore (fun _ => 3) loaded)) 2
          ([[[2], [5]], [[1]]].flatMap fun qs => CannonClient.sendGet binaryProtocol (requestOf qs)) () =
        some (replies, [], ()) ∧
      receiveAll [CannonClient.recvGet binaryProtocol CannonResponse.init,
          CannonClient.recvGet binaryProtocol CannonResponse.init] replies =
        some ([.ok ⟨1, [0, 1], [9, 0], true, true, true⟩, .ok ⟨0, [0], [7], true, true, true⟩], []) := by
  have distinct : (ImmutableHashMap.association 1 1 2 [1, 7, 2, 9]).keys.Nodup := by decide
  have sized : ∀ qs ∈ [[[2], [5]], [[1]]], Sized 1 1 qs :=
    List.forall_mem_cons.mpr ⟨⟨by decide, by decide, by decide⟩,
      List.forall_mem_cons.mpr ⟨⟨by decide, by decide, by decide⟩, List.forall_mem_nil _⟩⟩
  obtain ⟨loaded, run, served⟩ := table_over_the_wire binaryProtocol (fun _ => 3) 1 1 2 [1, 7, 2, 9]
    (by decide) (by decide) (by decide) (by decide) distinct [[[2], [5]], [[1]]] sized
  obtain ⟨replies, here, received⟩ := served Unit _ (serves_ofStore _ loaded) ()
  exact ⟨loaded, replies, run, here, received⟩

end CppProject.Cannon.Interface
