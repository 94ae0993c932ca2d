import CppProject.CannonProxy.Interface
import CppProject.Library.BinaryProtocol

/-!
# The service of the proxy

The messages of `Cannon_Service`, which the proxy offers, with its processor and its clients
in C++ and in Python.  Both clients send the same messages.  In Python a member that no field
was read for is `None`, and a reply is not compared with its call.
-/

namespace CppProject.CannonProxy.Service

open Library Library.Wire

structure ReloadArgs where
  paths : List Text
  deriving DecidableEq, Repr

structure CannonRequest where
  keys : List Int64
  deriving DecidableEq, Repr

structure GetArgs where
  req : CannonRequest
  deriving DecidableEq, Repr

section Messages

variable {B V Y : Type} (P : Protocol B V Y)

/-! ## Arguments -/

namespace VersionArgs

/-- There are no arguments, and every field is skipped. -/
def known (_ : Nat) (_ : WireType × Int16) : Option (Unit → Reader B Unit) := none

def read : Nat → Unit → Reader B Unit := P.readStruct known

def write : List B := P.fieldCells [] ++ P.stop

end VersionArgs

namespace ReloadArgs

def init : ReloadArgs := ⟨[]⟩

def known (_ : Nat) (header : WireType × Int16) : Option (ReloadArgs → Reader B ReloadArgs) :=
  if header = (.list, 1) then
    some fun args => do
      let paths ← P.readList P.string.reader
      pure { args with paths := paths }
  else none

def read : Nat → ReloadArgs → Reader B ReloadArgs := P.readStruct (known P)

def write (args : ReloadArgs) : List B :=
  P.fieldCells [(.list, 1, P.writeList .string P.string.write args.paths)] ++ P.stop

end ReloadArgs

namespace CannonRequest

def known (_ : Nat) (header : WireType × Int16) : Option (CannonRequest → Reader B CannonRequest) :=
  if header = (.list, 1) then
    some fun req => do
      let keys ← P.readList P.i64.reader
      pure { req with keys := keys }
  else none

def read : Nat → CannonRequest → Reader B CannonRequest := P.readStruct (known P)

def write (req : CannonRequest) : List B :=
  P.fieldCells [(.list, 1, P.writeList .i64 P.i64.write req.keys)] ++ P.stop

end CannonRequest

namespace GetArgs

def init : GetArgs := ⟨⟨[]⟩⟩

def known (depth : Nat) (header : WireType × Int16) : Option (GetArgs → Reader B GetArgs) :=
  if header = (.struct, 1) then
    some fun args => do
      let req ← CannonRequest.read P depth args.req
      pure { args with req := req }
  else none

def read : Nat → GetArgs → Reader B GetArgs := P.readStruct (known P)

def write (args : GetArgs) : List B :=
  P.fieldCells [(.struct, 1, CannonRequest.write P args.req)] ++ P.stop

end GetArgs

/-! ## The processor -/

/-- `Cannon_ServiceIf`: a method returns, or it throws an exception with a text. -/
structure CannonServiceIf (σ V : Type) where
  version : σ → Except Text Text × σ
  reload : List Text → σ → Except Text Bool × σ
  get : CannonRequest → σ → Except Text (Interface.CannonResponse V) × σ

namespace CannonServiceProcessor

variable {σ : Type} (iface : CannonServiceIf σ V)

def processVersion : Int32 → Reader B (Serve B σ) :=
  P.processCall "version".toList (VersionArgs.read P recursionLimit ()) (fun _ => iface.version)
    (fun success => P.writeResult .string (P.string.write success))

def processReload : Int32 → Reader B (Serve B σ) :=
  P.processCall "reload".toList (ReloadArgs.read P recursionLimit ReloadArgs.init)
    (fun args => iface.reload args.paths)
    (fun success => P.writeResult .bool (P.bool.write success))

def processGet : Int32 → Reader B (Serve B σ) :=
  P.processCall "get".toList (GetArgs.read P recursionLimit GetArgs.init)
    (fun args => iface.get args.req)
    (fun success => P.writeResult .struct (Interface.CannonResponse.write P success))

def processMap (fname : Text) : Option (Int32 → Reader B (Serve B σ)) :=
  if fname = "version".toList then some (processVersion P iface)
  else if fname = "reload".toList then some (processReload P iface)
  else if fname = "get".toList then some (processGet P iface)
  else none

def process : Reader B (Serve B σ) := P.process (processMap P iface)

end CannonServiceProcessor

/-! ## The client in C++ -/

namespace CannonServiceClient

def sendVersion : List B := P.sendCall "version".toList (VersionArgs.write P)

def recvVersion (old : Text) : Reader B (Except ApplicationException Text) :=
  P.recvCall "version".toList (P.readResult .string (fun _ _ => P.string.reader) old)

def sendReload (paths : List Text) : List B := P.sendCall "reload".toList (ReloadArgs.write P ⟨paths⟩)

/-- A `bool` on the stack that the result is read into. -/
def recvReload (ret : Bool) : Reader B (Except ApplicationException Bool) :=
  P.recvCall "reload".toList (P.readResult .bool (fun _ _ => P.bool.reader) ret)

def sendGet (req : CannonRequest) : List B := P.sendCall "get".toList (GetArgs.write P ⟨req⟩)

def recvGet [Zero V] (response : Interface.CannonResponse V) :
    Reader B (Except ApplicationException (Interface.CannonResponse V)) :=
  P.recvCall "get".toList (P.readResult .struct (Interface.CannonResponse.read P) response)

end CannonServiceClient

/-! ## The client in Python -/

namespace Python

/-- A member is `None` when no field has set it. -/
structure ValueItem (V : Type) where
  status : Option Int32
  value : Option V
  deriving DecidableEq, Repr

structure CannonResponse (V : Type) where
  status : Option Int32
  values : Option (List (ValueItem V))
  deriving DecidableEq, Repr

namespace ValueItem

def known (_ : Nat) (header : WireType × Int16) : Option (ValueItem V → Reader B (ValueItem V)) :=
  if header = (.i32, 1) then
    some fun item => do
      let status ← P.i32.reader
      pure { item with status := some status }
  else if header = (.double, 2) then
    some fun item => do
      let value ← P.double.reader
      pure { item with value := some value }
  else none

def read : Nat → ValueItem V → Reader B (ValueItem V) := P.readStruct (known P)

end ValueItem

namespace CannonResponse

def known (nesting : Nat) (header : WireType × Int16) :
    Option (CannonResponse V → Reader B (CannonResponse V)) :=
  if header = (.i32, 1) then
    some fun response => do
      let status ← P.i32.reader
      pure { response with status := some status }
  else if header = (.list, 2) then
    some fun response => do
      let values ← P.readList (ValueItem.read P nesting ⟨none, none⟩)
      pure { response with values := some values }
  else none

def read : Nat → CannonResponse V → Reader B (CannonResponse V) := P.readStruct (known P)

end CannonResponse

/-- A list that is not `None` is written as the only field of its struct. -/
def listFields {α : Type} (type : WireType) (write : α → List B) : Option (List α) →
    List (WireType × Int16 × List B)
  | some values => [(.list, 1, P.writeList type write values)]
  | none => []

def sendVersion : List B := P.sendCall "version".toList (P.fieldCells [] ++ P.stop)

def sendReload (paths : Option (List Text)) : List B :=
  P.sendCall "reload".toList (P.fieldCells (listFields P .string P.string.write paths) ++ P.stop)

/-- The request, with its `keys`. -/
def sendGet (keys : Option (List Int64)) : List B :=
  P.sendCall "get".toList (P.fieldCells
    [(.struct, 1, P.fieldCells (listFields P .i64 P.i64.write keys) ++ P.stop)] ++ P.stop)

variable {R : Type}

/-- The struct of a result, whose `success` is `None` until it is read. -/
def resultKnown (type : WireType) (read : Nat → Reader B R) (nesting : Nat)
    (header : WireType × Int16) : Option (Option R → Reader B (Option R)) :=
  if header = (type, 0) then
    some fun _ => do
      let success ← read nesting
      pure (some success)
  else none

/-- Neither the name nor another type of the reply is looked at. -/
def recv (nesting : Nat) (name : Text) (type : WireType) (read : Nat → Reader B R) :
    Reader B (Except ApplicationException R) := do
  let message ← P.messageBegin.reader
  if message.type = .exception then
    let x ← P.applicationException.reader
    pure (.error x)
  else do
    let result ← P.readStruct (resultKnown type read) nesting none
    pure (Protocol.outcome name result)

def recvVersion (nesting : Nat) : Reader B (Except ApplicationException Text) :=
  recv P nesting "version".toList .string fun _ => P.string.reader

def recvReload (nesting : Nat) : Reader B (Except ApplicationException Bool) :=
  recv P nesting "reload".toList .bool fun _ => P.bool.reader

def recvGet (nesting : Nat) : Reader B (Except ApplicationException (CannonResponse V)) :=
  recv P nesting "get".toList .struct fun nesting => CannonResponse.read P nesting ⟨none, none⟩

end Python

end Messages

/-! ## Round trips -/

section RoundTrips

variable {B V Y : Type} {P : Protocol B V Y} {depth : Nat}

theorem ReloadArgs.takes_write {paths : List Text} (short : paths.length < sizeLimit)
    (plain : ∀ path ∈ paths, Plain path) :
    (ReloadArgs.read P (depth + 1) ReloadArgs.init).Takes (ReloadArgs.write P ⟨paths⟩) ⟨paths⟩ := by
  have each : (P.readList P.string.reader).Takes (P.writeList .string P.string.write paths)
      (paths.map fun path => path) :=
    Protocol.takes_writeList rfl short fun path member => P.string.takes_write (plain path member)
  rw [List.map_id'] at each
  exact Protocol.takes_readStruct_field rfl (Protocol.takes_structField_value rfl each rfl)

theorem CannonRequest.takes_write {req : CannonRequest} (short : req.keys.length < sizeLimit) :
    (CannonRequest.read P (depth + 1) ⟨[]⟩).Takes (CannonRequest.write P req) req :=
  Protocol.takes_readStruct_field rfl
    (Protocol.takes_structField_value rfl (Protocol.takes_list rfl short fun _ => P.i64.takes_write trivial) rfl)

theorem GetArgs.takes_write {req : CannonRequest} (short : req.keys.length < sizeLimit) :
    (GetArgs.read P (depth + 2) GetArgs.init).Takes (GetArgs.write P ⟨req⟩) ⟨req⟩ := by
  refine Protocol.takes_readStruct_field rfl (Protocol.takes_structField rfl
    ((CannonRequest.takes_write short).bind_pure ?_))
  exact Reader.takes_pure _

namespace Python

/-- What Python makes of an item and of a response that the processor has written. -/
def ofItem (item : Interface.ValueItem V) : ValueItem V := ⟨some item.status, some item.value⟩

def ofResponse (response : Interface.CannonResponse V) : CannonResponse V :=
  ⟨some response.status, some (response.values.map ofItem)⟩

theorem ValueItem.takes_write (item : Interface.ValueItem V) :
    (ValueItem.read P (depth + 1) ⟨none, none⟩).Takes (Interface.ValueItem.write P item) (ofItem item) :=
  Protocol.takes_readStruct_cons rfl
    (Protocol.takes_structField_value rfl (P.i32.takes_write trivial) rfl)
    (Protocol.takes_readStruct_field rfl
      (Protocol.takes_structField_value rfl (P.double.takes_write trivial) rfl))

theorem CannonResponse.takes_write {response : Interface.CannonResponse V}
    (short : response.values.length < sizeLimit) :
    (CannonResponse.read P (depth + 2) ⟨none, none⟩).Takes (Interface.CannonResponse.write P response)
      (ofResponse response) :=
  Protocol.takes_readStruct_cons rfl
    (Protocol.takes_structField_value rfl (P.i32.takes_write trivial) rfl)
    (Protocol.takes_readStruct_field rfl
      (Protocol.takes_structField_value rfl
        (Protocol.takes_writeList rfl short fun item _ => ValueItem.takes_write item) rfl))

variable {R : Type}

theorem takes_recv {nesting : Nat} {name : Text} {type : WireType} {read : Nat → Reader B R}
    {cells : List B} {success : R} (standard : type.standard = true) (plain : Plain name)
    (takes : (read nesting).Takes cells success) :
    (recv P (nesting + 1) name type read).Takes (P.resultReply name 0 (P.writeResult type cells))
      (.ok success) := by
  refine (P.messageBegin.takes_write ⟨rfl, plain⟩).bind ?_
  rw [if_neg (by simp)]
  have field : (P.structField (resultKnown type read) nesting (type, 0) none).Takes cells (some success) := by
    refine Protocol.takes_structField (if_pos rfl) (takes.bind_pure ?_)
    exact Reader.takes_pure _
  exact (Protocol.takes_readStruct_field standard field).bind_pure (Reader.takes_pure _)

theorem takes_recv_exception {nesting : Nat} {name called : Text} {type : WireType}
    {read : Nat → Reader B R} (plain : Plain name) {x : ApplicationException} (fits : Plain x.message) :
    (recv P nesting called type read).Takes (P.exceptionReply name 0 x) (.error x) := by
  refine (P.messageBegin.takes_write ⟨rfl, plain⟩).bind ?_
  rw [if_pos rfl]
  exact (P.applicationException.takes_write fits).bind_pure (Reader.takes_pure _)

end Python

end RoundTrips

/-! ## Calls of both clients -/

/-- A client, in Python with the depth to which it can nest its readers. -/
inductive Client where
  | cpp
  | python (nesting : Nat)
  deriving DecidableEq, Repr

inductive Method where
  | version
  | reload (paths : List Text)
  | get (keys : List Int64)
  deriving DecidableEq, Repr

structure ClientCall where
  client : Client
  method : Method
  deriving DecidableEq, Repr

/-- What a method of the handler returns. -/
inductive Result (V : Type) where
  | version (text : Text)
  | reload (ret : Bool)
  | get (response : Interface.CannonResponse V)
  deriving DecidableEq, Repr

/-- What the caller gets: a response in its language. -/
inductive Outcome (V : Type) where
  | version (text : Text)
  | reload (ret : Bool)
  | get (response : Interface.CannonResponse V)
  | pythonGet (response : Python.CannonResponse V)
  deriving DecidableEq, Repr

section Calls

variable {B V Y σ : Type}

/-- The handler, asked for a method. -/
def Method.call (iface : CannonServiceIf σ V) (method : Method) (s : σ) : Except Text (Result V) × σ :=
  match method with
  | .version => ((iface.version s).1.map .version, (iface.version s).2)
  | .reload paths => ((iface.reload paths s).1.map .reload, (iface.reload paths s).2)
  | .get keys => ((iface.get ⟨keys⟩ s).1.map .get, (iface.get ⟨keys⟩ s).2)

namespace Client

def holds (client : Client) : Result V → Outcome V
  | .version text => .version text
  | .reload ret => .reload ret
  | .get response =>
      match client with
      | .cpp => .get response
      | .python _ => .pythonGet (Python.ofResponse response)

/-- The exception of a handler arrives as one of the calling layer. -/
def outcome (client : Client) : Except Text (Result V) → Except ApplicationException (Outcome V)
  | .ok result => .ok (client.holds result)
  | .error what => .error ⟨ApplicationException.unknown, what⟩

variable (P : Protocol B V Y)

def sent : Client → Method → List B
  | cpp, .version => CannonServiceClient.sendVersion P
  | cpp, .reload paths => CannonServiceClient.sendReload P paths
  | cpp, .get keys => CannonServiceClient.sendGet P ⟨keys⟩
  | python _, .version => Python.sendVersion P
  | python _, .reload paths => Python.sendReload P (some paths)
  | python _, .get keys => Python.sendGet P (some keys)

def received [Zero V] : Client → Method → Reader B (Except ApplicationException (Outcome V))
  | cpp, .version => do
      let success ← CannonServiceClient.recvVersion P []
      pure (success.map .version)
  | cpp, .reload _ => do
      let success ← CannonServiceClient.recvReload P false
      pure (success.map .reload)
  | cpp, .get _ => do
      let success ← CannonServiceClient.recvGet P Interface.CannonResponse.init
      pure (success.map .get)
  | python nesting, .version => do
      let success ← Python.recvVersion P nesting
      pure (success.map .version)
  | python nesting, .reload _ => do
      let success ← Python.recvReload P nesting
      pure (success.map .reload)
  | python nesting, .get _ => do
      let success ← Python.recvGet P nesting
      pure (success.map .pythonGet)

/-- A reply nests a list of items in a response in a result. -/
def Deep : Client → Prop
  | cpp => True
  | python nesting => 3 ≤ nesting

end Client

/-- The sizes and the texts of the arguments fit. -/
def Method.Fits : Method → Prop
  | .version => True
  | .reload paths => paths.length < sizeLimit ∧ ∀ path ∈ paths, Plain path
  | .get keys => keys.length < sizeLimit

/-- The sizes and the texts of what the handler says fit. -/
def AnswerFits : Except Text (Result V) → Prop
  | .error what => Plain what
  | .ok (.version text) => Plain text
  | .ok (.reload _) => True
  | .ok (.get response) => response.values.length < sizeLimit

theorem plain_methods : Plain "version".toList ∧ Plain "reload".toList ∧ Plain "get".toList :=
  ⟨plain_of_all (by decide) (by decide), plain_of_all (by decide) (by decide), plain_of_all (by decide) (by decide)⟩

/-- A call fits when its client can read the replies and its arguments fit. -/
structure ClientCall.Fits (call : ClientCall) : Prop where
  deep : call.client.Deep
  arguments : call.method.Fits

variable (P : Protocol B V Y) in
/-- A call on the wire, with what the handler says to it. -/
def ClientCall.exchange [Zero V] (iface : CannonServiceIf σ V) (call : ClientCall) :
    Exchange B σ (Except ApplicationException (Outcome V)) where
  request := call.client.sent P call.method
  recv := call.client.received P call.method
  answer s := (call.client.outcome (call.method.call iface s).1, (call.method.call iface s).2)

namespace Client

variable {P : Protocol B V Y} {client : Client}

/-- Both clients send the same calls. -/
theorem sent_eq (client : Client) (method : Method) : client.sent P method = cpp.sent P method := by
  cases client <;> cases method <;> rfl

variable [Zero V]

theorem reads_version (deep : client.Deep) {text : Text} (plain : Plain text) :
    (client.received P .version).Takes
      (P.resultReply "version".toList 0 (P.writeResult .string (P.string.write text)))
      (.ok (.version text)) := by
  obtain ⟨plain_version, _⟩ := plain_methods
  have takes := P.string.takes_write plain
  cases client with
  | cpp =>
      exact (Protocol.takes_recvCall plain_version 0 (Protocol.takes_writeResult rfl takes)).bind_pure
        (Reader.takes_pure_of_eq rfl)
  | python nesting =>
      obtain ⟨depth, rfl⟩ := Nat.exists_eq_add_of_le' deep
      exact (Python.takes_recv rfl plain_version takes).bind_pure (Reader.takes_pure_of_eq rfl)

theorem reads_reload (deep : client.Deep) (paths : List Text) (ret : Bool) :
    (client.received P (.reload paths)).Takes
      (P.resultReply "reload".toList 0 (P.writeResult .bool (P.bool.write ret))) (.ok (.reload ret)) := by
  obtain ⟨_, plain_reload, _⟩ := plain_methods
  have takes : P.bool.reader.Takes (P.bool.write ret) ret := P.bool.takes_write trivial
  cases client with
  | cpp =>
      exact (Protocol.takes_recvCall plain_reload 0 (Protocol.takes_writeResult rfl takes)).bind_pure
        (Reader.takes_pure_of_eq rfl)
  | python nesting =>
      obtain ⟨depth, rfl⟩ := Nat.exists_eq_add_of_le' deep
      exact (Python.takes_recv rfl plain_reload takes).bind_pure (Reader.takes_pure_of_eq rfl)

theorem reads_get (deep : client.Deep) (keys : List Int64) {response : Interface.CannonResponse V}
    (short : response.values.length < sizeLimit) :
    (client.received P (.get keys)).Takes
      (P.resultReply "get".toList 0 (P.writeResult .struct (Interface.CannonResponse.write P response)))
      (.ok (client.holds (.get response))) := by
  obtain ⟨_, _, plain_get⟩ := plain_methods
  cases client with
  | cpp =>
      exact (Protocol.takes_recvCall plain_get 0 (Protocol.takes_writeResult rfl
        (Interface.CannonResponse.takes_write short _))).bind_pure (Reader.takes_pure_of_eq rfl)
  | python nesting =>
      obtain ⟨depth, rfl⟩ := Nat.exists_eq_add_of_le' deep
      exact (Python.takes_recv rfl plain_get (Python.CannonResponse.takes_write short)).bind_pure
        (Reader.takes_pure_of_eq rfl)

/-- The exception of a method arrives, whatever the call was. -/
theorem reads_exception {name what : Text} (plain_name : Plain name) (plain : Plain what)
    (client : Client) (method : Method) :
    (client.received P method).Takes
      (P.exceptionReply name 0 ⟨ApplicationException.unknown, what⟩)
      (.error ⟨ApplicationException.unknown, what⟩) := by
  cases client with
  | cpp =>
      cases method <;>
        exact (Protocol.takes_recvCall_exception plain_name 0 plain _).bind_pure (Reader.takes_pure_of_eq rfl)
  | python nesting =>
      cases method <;>
        exact (Python.takes_recv_exception plain_name plain).bind_pure (Reader.takes_pure_of_eq rfl)

end Client

/-- A call of either client gets what the handler says in the state that the call finds. -/
theorem ClientCall.works [Zero V] {P : Protocol B V Y} {call : ClientCall} (fits : call.Fits)
    {iface : CannonServiceIf σ V} {s : σ} (answer : AnswerFits (call.method.call iface s).1) :
    ∃ serve, (CannonServiceProcessor.process P iface).Takes (call.exchange P iface).request serve ∧
      (call.exchange P iface).recv.Takes (serve s).1 ((call.exchange P iface).answer s).1 ∧
      (serve s).2 = ((call.exchange P iface).answer s).2 := by
  obtain ⟨client, method⟩ := call
  obtain ⟨deep, fits⟩ := fits
  simp only [ClientCall.exchange]
  obtain ⟨plain_version, plain_reload, plain_get⟩ := plain_methods
  rw [client.sent_eq]
  cases method with
  | version =>
      have found : CannonServiceProcessor.processMap P iface "version".toList =
          some (CannonServiceProcessor.processVersion P iface) := if_pos rfl
      refine Protocol.call_works (fun said => client.outcome (said.map .version)) s plain_version found
        (Protocol.takes_readStruct_stop ()) ?_ ?_
      · intro text said
        rw [Method.call, said] at answer
        exact Client.reads_version deep answer
      · intro what said
        rw [Method.call, said] at answer
        exact Client.reads_exception plain_version answer client .version
  | reload paths =>
      have found : CannonServiceProcessor.processMap P iface "reload".toList =
          some (CannonServiceProcessor.processReload P iface) := by
        rw [CannonServiceProcessor.processMap, if_neg (by decide), if_pos rfl]
      refine Protocol.call_works (fun said => client.outcome (said.map .reload)) s plain_reload found
        (ReloadArgs.takes_write fits.1 fits.2) ?_ ?_
      · intro ret _
        exact Client.reads_reload deep paths ret
      · rintro what (said : (iface.reload paths s).1 = .error what)
        rw [Method.call, said] at answer
        exact Client.reads_exception plain_reload answer client (.reload paths)
  | get keys =>
      have found : CannonServiceProcessor.processMap P iface "get".toList =
          some (CannonServiceProcessor.processGet P iface) := by
        rw [CannonServiceProcessor.processMap, if_neg (by decide), if_neg (by decide), if_pos rfl]
      refine Protocol.call_works (fun said => client.outcome (said.map .get)) s plain_get found
        (GetArgs.takes_write fits) ?_ ?_
      · rintro response (said : (iface.get ⟨keys⟩ s).1 = .ok response)
        rw [Method.call, said] at answer
        exact Client.reads_get deep keys answer
      · rintro what (said : (iface.get ⟨keys⟩ s).1 = .error what)
        rw [Method.call, said] at answer
        exact Client.reads_exception plain_get answer client (.get keys)

end Calls

end CppProject.CannonProxy.Service
