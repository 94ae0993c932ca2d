import CppProject.CannonProxy.CannonClientWrapper
import CppProject.Library.Calls

/-!
# The interface of the shards

The messages between proxy and shards with their readers and writers, the processor of a
shard and the client that the wrapper uses.  A `read` into a fresh struct starts from the
struct's defaults, and the `__isset` flags that nothing reads are left out.
-/

namespace CppProject.CannonProxy.Interface

open Library Library.Wire

/-- `ValueItem` as it is read: the enumeration holds whatever number was sent. -/
structure ValueItem (V : Type) where
  status : Int32
  value : V
  deriving DecidableEq, Repr

structure CannonResponse (V : Type) where
  status : Int32
  values : List (ValueItem V)
  deriving DecidableEq, Repr

structure GetArgs where
  keys : List Int64
  dataVersion : Int32
  deriving DecidableEq, Repr

structure InsertArgs (V : Type) where
  kvs : List (CannonKV V)
  dataVersion : Int32
  deriving DecidableEq, Repr

section Messages

variable {B V Y : Type} (P : Protocol B V Y)

/-! ## Structs -/

namespace ValueItem

def known (_ : Nat) (header : WireType × Int16) : Option (ValueItem V → Reader B (ValueItem V)) :=
  if header = (.i32, 1) then
    some fun item => do
      let ecast ← P.i32.reader
      pure { item with status := ecast }
  else if header = (.double, 2) then
    some fun item => do
      let value ← P.double.reader
      pure { item with value := value }
  else none

def read : Nat → ValueItem V → Reader B (ValueItem V) := P.readStruct (known P)

def write (item : ValueItem V) : List B :=
  P.fieldCells [(.i32, 1, P.i32.write item.status), (.double, 2, P.double.write item.value)] ++ P.stop

end ValueItem

namespace CannonKV

def known (_ : Nat) (header : WireType × Int16) : Option (CannonKV V → Reader B (CannonKV V)) :=
  if header = (.i64, 1) then
    some fun kv => do
      let key ← P.i64.reader
      pure { kv with key := key }
  else if header = (.double, 2) then
    some fun kv => do
      let value ← P.double.reader
      pure { kv with value := value }
  else none

def read : Nat → CannonKV V → Reader B (CannonKV V) := P.readStruct (known P)

def write (kv : CannonKV V) : List B :=
  P.fieldCells [(.i64, 1, P.i64.write kv.key), (.double, 2, P.double.write kv.value)] ++ P.stop

end CannonKV

namespace CannonResponse

def init : CannonResponse V := ⟨0, []⟩

/-- The vector is cleared and resized, so every item is read into a fresh one. -/
def known [Zero V] (depth : Nat) (header : WireType × Int16) :
    Option (CannonResponse V → Reader B (CannonResponse V)) :=
  if header = (.i32, 1) then
    some fun response => do
      let ecast ← P.i32.reader
      pure { response with status := ecast }
  else if header = (.list, 2) then
    some fun response => do
      let values ← P.readList (ValueItem.read P depth ⟨0, 0⟩)
      pure { response with values := values }
  else none

def read [Zero V] : Nat → CannonResponse V → Reader B (CannonResponse V) := P.readStruct (known P)

def write (response : CannonResponse V) : List B :=
  P.fieldCells [(.i32, 1, P.i32.write response.status),
    (.list, 2, P.writeList .struct (ValueItem.write P) response.values)] ++ P.stop

end CannonResponse

/-! ## Arguments -/

namespace GetArgs

def init : GetArgs := ⟨[], 0⟩

def known (_ : Nat) (header : WireType × Int16) : Option (GetArgs → Reader B GetArgs) :=
  if header = (.list, 1) then
    some fun args => do
      let keys ← P.readList P.i64.reader
      pure { args with keys := keys }
  else if header = (.i32, 2) then
    some fun args => do
      let dataVersion ← P.i32.reader
      pure { args with dataVersion := dataVersion }
  else none

def read : Nat → GetArgs → Reader B GetArgs := P.readStruct (known P)

def write (args : GetArgs) : List B :=
  P.fieldCells [(.list, 1, P.writeList .i64 P.i64.write args.keys),
    (.i32, 2, P.i32.write args.dataVersion)] ++ P.stop

end GetArgs

namespace InsertArgs

def init : InsertArgs V := ⟨[], 0⟩

def known [Zero V] (depth : Nat) (header : WireType × Int16) :
    Option (InsertArgs V → Reader B (InsertArgs V)) :=
  if header = (.list, 1) then
    some fun args => do
      let kvs ← P.readList (CannonKV.read P depth ⟨0, 0⟩)
      pure { args with kvs := kvs }
  else if header = (.i32, 2) then
    some fun args => do
      let dataVersion ← P.i32.reader
      pure { args with dataVersion := dataVersion }
  else none

def read [Zero V] : Nat → InsertArgs V → Reader B (InsertArgs V) := P.readStruct (known P)

def write (args : InsertArgs V) : List B :=
  P.fieldCells [(.list, 1, P.writeList .struct (CannonKV.write P) args.kvs),
    (.i32, 2, P.i32.write args.dataVersion)] ++ P.stop

end InsertArgs

namespace ClearDataArgs

/-- The one argument is the version. -/
def known (_ : Nat) (header : WireType × Int16) : Option (Int32 → Reader B Int32) :=
  if header = (.i32, 1) then some fun _ => P.i32.reader else none

def read : Nat → Int32 → Reader B Int32 := P.readStruct (known P)

def write (dataVersion : Int32) : List B :=
  P.fieldCells [(.i32, 1, P.i32.write dataVersion)] ++ P.stop

end ClearDataArgs

/-! ## The service -/

def statusCode : Status → Int32
  | .ok => 0
  | .partialOk => 1
  | .error => 2

def itemStatusCode : ItemStatus → Int32
  | .found => 0
  | .notFound => 1
  | .error => 2

/-- The low bit of a version is that of the number in its 32 bits. -/
def versionBits (dataVersion : Int32) : Nat := dataVersion.toUInt32.toNat

def sentItem (item : CannonProxy.ValueItem V) : ValueItem V := ⟨itemStatusCode item.status, item.value⟩

def sentResponse (response : CannonProxy.CannonResponse V) : CannonResponse V :=
  ⟨statusCode response.status, response.values.map sentItem⟩

namespace CannonProcessor

variable [Zero V]

def processGet : Int32 → Reader B (Serve B (Storage V)) :=
  P.processCall "get".toList (GetArgs.read P recursionLimit GetArgs.init)
    (fun args s => (.ok (sentResponse (CannonHandler.get s args.keys (versionBits args.dataVersion))), s))
    (fun success => P.writeResult .struct (CannonResponse.write P success))

def processInsert : Int32 → Reader B (Serve B (Storage V)) :=
  P.processCall "insert".toList (InsertArgs.read P recursionLimit InsertArgs.init)
    (fun args s =>
      let (ret, s) := CannonHandler.insert (versionBits args.dataVersion) args.kvs s
      (.ok ret, s))
    (fun success => P.writeResult .bool (P.bool.write success))

def processClearData : Int32 → Reader B (Serve B (Storage V)) :=
  P.processCall "clear_data".toList (ClearDataArgs.read P recursionLimit 0)
    (fun dataVersion s =>
      let (ret, s) := CannonHandler.clearData s (versionBits dataVersion)
      (.ok ret, s))
    (fun success => P.writeResult .bool (P.bool.write success))

def processMap (fname : Text) : Option (Int32 → Reader B (Serve B (Storage V))) :=
  if fname = "get".toList then some (processGet P)
  else if fname = "insert".toList then some (processInsert P)
  else if fname = "clear_data".toList then some (processClearData P)
  else none

def process : Reader B (Serve B (Storage V)) := P.process (processMap P)

end CannonProcessor

namespace CannonClient

def sendGet (keys : List Int64) (dataVersion : Int32) : List B :=
  P.sendCall "get".toList (GetArgs.write P ⟨keys, dataVersion⟩)

def recvGet [Zero V] (response : CannonResponse V) :
    Reader B (Except ApplicationException (CannonResponse V)) :=
  P.recvCall "get".toList (P.readResult .struct (CannonResponse.read P) response)

def sendInsert (kvs : List (CannonKV V)) (dataVersion : Int32) : List B :=
  P.sendCall "insert".toList (InsertArgs.write P ⟨kvs, dataVersion⟩)

/-- A `bool` on the stack that the result is read into. -/
def recvInsert (ret : Bool) : Reader B (Except ApplicationException Bool) :=
  P.recvCall "insert".toList (P.readResult .bool (fun _ _ => P.bool.reader) ret)

def sendClearData (dataVersion : Int32) : List B :=
  P.sendCall "clear_data".toList (ClearDataArgs.write P dataVersion)

def recvClearData (ret : Bool) : Reader B (Except ApplicationException Bool) :=
  P.recvCall "clear_data".toList (P.readResult .bool (fun _ _ => P.bool.reader) ret)

end CannonClient

end Messages

/-! ## Round trips -/

section RoundTrips

variable {B V Y : Type} {P : Protocol B V Y} {depth : Nat}

theorem ValueItem.takes_write (item old : ValueItem V) :
    (ValueItem.read P (depth + 1) old).Takes (ValueItem.write P item) item :=
  Protocol.takes_readStruct_cons rfl
    (Protocol.takes_structField_value rfl (P.i32.takes_write trivial) rfl)
    (Protocol.takes_readStruct_field rfl
      (Protocol.takes_structField_value rfl (P.double.takes_write trivial) rfl))

theorem CannonKV.takes_write (kv old : CannonKV V) :
    (CannonKV.read P (depth + 1) old).Takes (CannonKV.write P kv) kv :=
  Protocol.takes_readStruct_cons rfl
    (Protocol.takes_structField_value rfl (P.i64.takes_write trivial) rfl)
    (Protocol.takes_readStruct_field rfl
      (Protocol.takes_structField_value rfl (P.double.takes_write trivial) rfl))

theorem CannonResponse.takes_write [Zero V] {response : CannonResponse V}
    (short : response.values.length < sizeLimit) (old : CannonResponse V) :
    (CannonResponse.read P (depth + 2) old).Takes (CannonResponse.write P response) response :=
  Protocol.takes_readStruct_cons rfl
    (Protocol.takes_structField_value rfl (P.i32.takes_write trivial) rfl)
    (Protocol.takes_readStruct_field rfl
      (Protocol.takes_structField_value rfl (Protocol.takes_list rfl short fun item => item.takes_write _) rfl))

theorem GetArgs.takes_write {args : GetArgs} (short : args.keys.length < sizeLimit) :
    (GetArgs.read P (depth + 1) GetArgs.init).Takes (GetArgs.write P args) args :=
  Protocol.takes_readStruct_cons rfl
    (Protocol.takes_structField_value rfl (Protocol.takes_list rfl short fun _ => P.i64.takes_write trivial) rfl)
    (Protocol.takes_readStruct_field rfl
      (Protocol.takes_structField_value rfl (P.i32.takes_write trivial) rfl))

theorem InsertArgs.takes_write [Zero V] {args : InsertArgs V} (short : args.kvs.length < sizeLimit) :
    (InsertArgs.read P (depth + 2) InsertArgs.init).Takes (InsertArgs.write P args) args :=
  Protocol.takes_readStruct_cons rfl
    (Protocol.takes_structField_value rfl (Protocol.takes_list rfl short fun kv => CannonKV.takes_write kv _) rfl)
    (Protocol.takes_readStruct_field rfl
      (Protocol.takes_structField_value rfl (P.i32.takes_write trivial) rfl))

theorem ClearDataArgs.takes_write (dataVersion : Int32) :
    (ClearDataArgs.read P (depth + 1) 0).Takes (ClearDataArgs.write P dataVersion) dataVersion :=
  Protocol.takes_readStruct_field rfl (Protocol.takes_structField rfl (P.i32.takes_write trivial))

end RoundTrips

end CppProject.CannonProxy.Interface
