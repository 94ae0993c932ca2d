import CppProject.Cannon.CannonServer
import CppProject.Library.BinaryProtocol
import CppProject.Library.Calls

/-!
# The interface of the cannon server

The messages of the service `Cannon` with their readers and writers, the processor and
the client.  The protocol, with the parts of its runtime that are not generated, is a
parameter.  Every `read` starts with a recursion tracker, so it has the depth that is left
as its argument.
-/

namespace CppProject.Cannon.Interface

open Library Library.Wire

/-! ## Messages -/

/-- `CannonRequest` with its `__isset`. -/
structure CannonRequest where
  keys : List Byte
  issetKeys : Bool
  deriving DecidableEq, Repr

/-- `CannonResponse` with its `__isset`.  The enumerations hold whatever number was read. -/
structure CannonResponse where
  status : Int32
  valueStatuses : List Int32
  values : List Byte
  issetStatus : Bool
  issetValueStatuses : Bool
  issetValues : Bool
  deriving DecidableEq, Repr

structure CannonGetArgs where
  req : CannonRequest
  issetReq : Bool
  deriving DecidableEq, Repr

def CannonRequest.init : CannonRequest := ⟨[], false⟩

def CannonResponse.init : CannonResponse := ⟨0, [], [], false, false, false⟩

def CannonGetArgs.init : CannonGetArgs := ⟨CannonRequest.init, false⟩

section Messages

variable {B D : Type} (P : Protocol B D Byte)

namespace CannonRequest

/-- The cases of `read`. -/
def known (_ : Nat) (header : WireType × Int16) : Option (CannonRequest → Reader B CannonRequest) :=
  if header = (.string, 1) then
    some fun req => do
      let keys ← P.binary.reader
      pure { req with keys := keys, issetKeys := true }
  else none

def read : Nat → CannonRequest → Reader B CannonRequest := P.readStruct (known P)

def fields (req : CannonRequest) : List (WireType × Int16 × List B) :=
  [(.string, 1, P.binary.write req.keys)]

def write (req : CannonRequest) : List B := P.fieldCells (fields P req) ++ P.stop

end CannonRequest

namespace CannonResponse

def known (_ : Nat) (header : WireType × Int16) : Option (CannonResponse → Reader B CannonResponse) :=
  if header = (.i32, 1) then
    some fun res => do
      let ecast ← P.i32.reader
      pure { res with status := ecast, issetStatus := true }
  else if header = (.list, 2) then
    some fun res => do
      let ecasts ← P.readList P.i32.reader
      pure { res with valueStatuses := ecasts, issetValueStatuses := true }
  else if header = (.string, 3) then
    some fun res => do
      let values ← P.binary.reader
      pure { res with values := values, issetValues := true }
  else none

def read : Nat → CannonResponse → Reader B CannonResponse := P.readStruct (known P)

def fields (res : CannonResponse) : List (WireType × Int16 × List B) :=
  [(.i32, 1, P.i32.write res.status),
    (.list, 2, P.writeList .i32 P.i32.write res.valueStatuses),
    (.string, 3, P.binary.write res.values)]

def write (res : CannonResponse) : List B := P.fieldCells (fields P res) ++ P.stop

end CannonResponse

namespace CannonGetArgs

def known (depth : Nat) (header : WireType × Int16) : Option (CannonGetArgs → Reader B CannonGetArgs) :=
  if header = (.struct, 1) then
    some fun args => do
      let req ← CannonRequest.read P depth args.req
      pure { args with req := req, issetReq := true }
  else none

def read : Nat → CannonGetArgs → Reader B CannonGetArgs := P.readStruct (known P)

/-- `write` of the arguments, and of the `pargs` that point to the same request. -/
def write (args : CannonGetArgs) : List B :=
  P.fieldCells [(.struct, 1, CannonRequest.write P args.req)] ++ P.stop

end CannonGetArgs

/-! ## The service -/

/-- `CannonIf`: the handler fills the response that it is given, or throws. -/
structure CannonIf (σ : Type) where
  get : CannonResponse → CannonRequest → σ → Except Text CannonResponse × σ

namespace CannonProcessor

variable {σ : Type} (iface : CannonIf σ)

def processGet : Int32 → Reader B (Serve B σ) :=
  P.processCall "get".toList (CannonGetArgs.read P recursionLimit CannonGetArgs.init)
    (fun args => iface.get CannonResponse.init args.req)
    (fun success => P.writeResult .struct (CannonResponse.write P success))

def processMap (fname : Text) : Option (Int32 → Reader B (Serve B σ)) :=
  if fname = "get".toList then some (processGet P iface) else none

def process : Reader B (Serve B σ) := P.process (processMap P iface)

end CannonProcessor

namespace CannonClient

def sendGet (req : CannonRequest) : List B := P.sendCall "get".toList (CannonGetArgs.write P ⟨req, true⟩)

/-- The result is read into the response of the caller. -/
def recvGet (response : CannonResponse) : Reader B (Except ApplicationException CannonResponse) :=
  P.recvCall "get".toList (P.readResult .struct (CannonResponse.read P) response)

end CannonClient

end Messages

/-! ## Fields in any order -/

variable {B D : Type} {P : Protocol B D Byte} {depth : Nat}

/-- What may stand in the place of a field of a `CannonResponse`. -/
inductive ResponseField (B : Type) where
  | status (ecast : Int32)
  | valueStatuses (ecasts : List Int32)
  | values (bytes : List Byte)
  | other (type : WireType) (id : Int16) (cells : List B)

namespace ResponseField

variable (P) in
def parts : ResponseField B → WireType × Int16 × List B
  | status ecast => (.i32, 1, P.i32.write ecast)
  | valueStatuses ecasts => (.list, 2, P.writeList .i32 P.i32.write ecasts)
  | values bytes => (.string, 3, P.binary.write bytes)
  | other type id cells => (type, id, cells)

variable (P depth) in
/-- The sizes fit, and another field is not one of the three and has a value of its type.  A list
under id 2 is always taken for the statuses: `read` does not compare the type of its elements, so
one that does not hold `i32`s is left out here. -/
def Valid : ResponseField B → Prop
  | status _ => True
  | valueStatuses ecasts => ecasts.length < sizeLimit
  | values bytes => bytes.length < sizeLimit
  | other type id cells =>
      type.standard = true ∧ (type, id) ≠ (.i32, 1) ∧ (type, id) ≠ (.list, 2) ∧
        (type, id) ≠ (.string, 3) ∧ P.Encoded depth type cells

/-- A known field replaces what was read for it before, another one changes nothing. -/
def apply (res : CannonResponse) : ResponseField B → CannonResponse
  | status ecast => { res with status := ecast, issetStatus := true }
  | valueStatuses ecasts => { res with valueStatuses := ecasts, issetValueStatuses := true }
  | values bytes => { res with values := bytes, issetValues := true }
  | other _ _ _ => res

theorem takes {f : ResponseField B} (valid : f.Valid P depth) :
    (f.parts P).1.standard = true ∧ ∀ res,
      (P.structField (CannonResponse.known P) depth ((f.parts P).1, (f.parts P).2.1) res).Takes
        (f.parts P).2.2 (f.apply res) := by
  cases f with
  | status ecast =>
      refine ⟨rfl, fun res => Protocol.takes_structField rfl ((P.i32.takes_write trivial).bind_pure ?_)⟩
      exact Reader.takes_pure _
  | valueStatuses ecasts =>
      refine ⟨rfl, fun res => Protocol.takes_structField rfl (Reader.Takes.bind_pure
        (Protocol.takes_writeList rfl valid fun _ _ => P.i32.takes_write trivial) ?_)⟩
      rw [List.map_id']
      exact Reader.takes_pure _
  | values bytes =>
      refine ⟨rfl, fun res => Protocol.takes_structField rfl ((P.binary.takes_write valid).bind_pure ?_)⟩
      exact Reader.takes_pure _
  | other type id cells =>
      obtain ⟨standard, not_status, not_statuses, not_values, encoded⟩ := valid
      have unknown : CannonResponse.known P depth (type, id) = none := by
        rw [CannonResponse.known, if_neg not_status, if_neg not_statuses, if_neg not_values]
      exact ⟨standard, fun res => Protocol.takes_structField_unknown unknown encoded res⟩

end ResponseField

/-- A `CannonResponse` is read from any sequence of fields, one after another. -/
theorem takes_response_fields {fields : List (ResponseField B)} (valid : ∀ f ∈ fields, f.Valid P depth)
    (res : CannonResponse) :
    (CannonResponse.read P (depth + 1) res).Takes
      (P.fieldCells (fields.map (ResponseField.parts P)) ++ P.stop)
      (fields.foldl ResponseField.apply res) :=
  Protocol.takes_readStruct (fun f member => ResponseField.takes (valid f member)) res

namespace ResponseField

/-! ### What is left of the fields -/

def status? : ResponseField B → Option Int32
  | status ecast => some ecast
  | _ => none

def valueStatuses? : ResponseField B → Option (List Int32)
  | valueStatuses ecasts => some ecasts
  | _ => none

def values? : ResponseField B → Option (List Byte)
  | values bytes => some bytes
  | _ => none

/-- A member that every field of a kind replaces is the one of the last such field. -/
theorem foldl_last {α : Type} {member : CannonResponse → α} {kind : ResponseField B → Option α}
    (each : ∀ res f, member (apply res f) = (kind f).getD (member res)) (fields : List (ResponseField B))
    (res : CannonResponse) :
    member (fields.foldl apply res) = (fields.filterMap kind).getLastD (member res) := by
  induction fields generalizing res with
  | nil => rfl
  | cons f fields ih =>
      rw [List.foldl_cons, ih, each]
      cases found : kind f with
      | none => rw [List.filterMap_cons_none found, Option.getD_none]
      | some value => rw [List.filterMap_cons_some found, List.getLastD_cons, Option.getD_some]

/-- A flag that every field of a kind sets. -/
theorem foldl_isset {α : Type} {isset : CannonResponse → Bool} {kind : ResponseField B → Option α}
    (each : ∀ res f, isset (apply res f) = (isset res || (kind f).isSome)) (fields : List (ResponseField B))
    (res : CannonResponse) :
    isset (fields.foldl apply res) = (isset res || fields.any fun f => (kind f).isSome) := by
  induction fields generalizing res with
  | nil => rw [List.foldl_nil, List.any_nil, Bool.or_false]
  | cons f fields ih => rw [List.foldl_cons, ih, each, List.any_cons, Bool.or_assoc]

end ResponseField

/-- A `CannonResponse` is read from any sequence of fields, also when another version has
written them, as long as a list under id 2 holds `i32`s: fields that are not known, or whose
type has changed, are skipped with all that is nested in them, the known ones count wherever
they stand, the last of a kind replaces the earlier ones, and a member without a field keeps
what the response had.  The reader stops behind the stop of the struct. -/
theorem response_read_any_fields (P : Protocol B D Byte) (depth : Nat) (fields : List (ResponseField B))
    (valid : ∀ f ∈ fields, f.Valid P depth) (res : CannonResponse) :
    ∃ read,
      (CannonResponse.read P (depth + 1) res).Takes
        (P.fieldCells (fields.map (ResponseField.parts P)) ++ P.stop) read ∧
      read.status = (fields.filterMap ResponseField.status?).getLastD res.status ∧
      read.valueStatuses = (fields.filterMap ResponseField.valueStatuses?).getLastD res.valueStatuses ∧
      read.values = (fields.filterMap ResponseField.values?).getLastD res.values ∧
      read.issetStatus = (res.issetStatus || fields.any fun f => f.status?.isSome) ∧
      read.issetValueStatuses = (res.issetValueStatuses || fields.any fun f => f.valueStatuses?.isSome) ∧
      read.issetValues = (res.issetValues || fields.any fun f => f.values?.isSome) := by
  have member : ∀ (res : CannonResponse) (f : ResponseField B),
      (f.apply res).status = f.status?.getD res.status ∧
      (f.apply res).valueStatuses = f.valueStatuses?.getD res.valueStatuses ∧
      (f.apply res).values = f.values?.getD res.values ∧
      (f.apply res).issetStatus = (res.issetStatus || f.status?.isSome) ∧
      (f.apply res).issetValueStatuses = (res.issetValueStatuses || f.valueStatuses?.isSome) ∧
      (f.apply res).issetValues = (res.issetValues || f.values?.isSome) := by
    intro res f
    cases f <;> simp [ResponseField.apply, ResponseField.status?, ResponseField.valueStatuses?,
      ResponseField.values?]
  refine ⟨_, takes_response_fields valid res, ?_, ?_, ?_, ?_, ?_, ?_⟩
  · exact ResponseField.foldl_last (fun res f => (member res f).1) fields res
  · exact ResponseField.foldl_last (fun res f => (member res f).2.1) fields res
  · exact ResponseField.foldl_last (fun res f => (member res f).2.2.1) fields res
  · exact ResponseField.foldl_isset (fun res f => (member res f).2.2.2.1) fields res
  · exact ResponseField.foldl_isset (fun res f => (member res f).2.2.2.2.1) fields res
  · exact ResponseField.foldl_isset (fun res f => (member res f).2.2.2.2.2) fields res

/-- A field that a later version has added stands between the fields, and `values` comes
twice. -/
theorem response_read_any_fields_added :
    ∃ read,
      (CannonResponse.read binaryProtocol 4 CannonResponse.init).Takes
        (binaryProtocol.fieldCells ([.values [9], .valueStatuses [0, 1],
            .other .map 9 (binaryProtocol.mapBegin.write (.i32, .string, 1) ++
              (binaryProtocol.i32.write 5 ++ binaryProtocol.binary.write [1] ++ [])),
            .values [7, 0], .status 1].map (ResponseField.parts binaryProtocol)) ++ binaryProtocol.stop)
        read ∧
      read.status = 1 ∧ read.valueStatuses = [0, 1] ∧ read.values = [7, 0] ∧ read.issetStatus = true ∧
      read.issetValueStatuses = true ∧ read.issetValues = true := by
  have entry : binaryProtocol.Encoded 3 .map (binaryProtocol.mapBegin.write (.i32, .string, 1) ++
      (binaryProtocol.i32.write 5 ++ binaryProtocol.binary.write [1] ++ [])) :=
    @Codecs.Encoded.map _ _ _ binaryProtocol.toCodecs 2 .i32 .string
      [(binaryProtocol.i32.write 5, binaryProtocol.binary.write [1])] ⟨rfl, rfl⟩ (by decide)
      (List.forall_mem_cons.mpr ⟨.i32 1 5, List.forall_mem_nil _⟩)
      (List.forall_mem_cons.mpr ⟨.binary 1 (by decide), List.forall_mem_nil _⟩)
  exact response_read_any_fields binaryProtocol 3
    [.values [9], .valueStatuses [0, 1], .other .map 9 _, .values [7, 0], .status 1]
    (List.forall_mem_cons.mpr ⟨(by decide : 1 < sizeLimit), List.forall_mem_cons.mpr
      ⟨(by decide : 2 < sizeLimit), List.forall_mem_cons.mpr
      ⟨⟨rfl, by decide, by decide, by decide, entry⟩, List.forall_mem_cons.mpr
      ⟨(by decide : 2 < sizeLimit), List.forall_mem_cons.mpr ⟨trivial, List.forall_mem_nil _⟩⟩⟩⟩⟩)
    CannonResponse.init

/-! ## Round trips -/

/-- The sizes of a request fit their size fields. -/
def CannonRequest.Fits (req : CannonRequest) : Prop := req.keys.length < sizeLimit

def CannonResponse.Fits (res : CannonResponse) : Prop :=
  res.valueStatuses.length < sizeLimit ∧ res.values.length < sizeLimit

/-- The message with all `__isset` flags. -/
def CannonRequest.whole (req : CannonRequest) : CannonRequest := { req with issetKeys := true }

def CannonResponse.whole (res : CannonResponse) : CannonResponse :=
  { res with issetStatus := true, issetValueStatuses := true, issetValues := true }

theorem CannonRequest.takes_write {req : CannonRequest} (fits : req.Fits) (old : CannonRequest) :
    (CannonRequest.read P (depth + 1) old).Takes (CannonRequest.write P req) req.whole := by
  refine Protocol.takes_readStruct_field rfl
    (Protocol.takes_structField rfl ((P.binary.takes_write fits).bind_pure ?_))
  exact Reader.takes_pure _

theorem CannonResponse.takes_write {res : CannonResponse} (fits : res.Fits) (old : CannonResponse) :
    (CannonResponse.read P (depth + 1) old).Takes (CannonResponse.write P res) res.whole := by
  refine @takes_response_fields _ _ _ _
    [.status res.status, .valueStatuses res.valueStatuses, .values res.values] ?_ old
  exact List.forall_mem_cons.mpr ⟨trivial, List.forall_mem_cons.mpr
    ⟨fits.1, List.forall_mem_cons.mpr ⟨fits.2, List.forall_mem_nil _⟩⟩⟩

theorem CannonGetArgs.takes_write {req : CannonRequest} (fits : req.Fits) (isset : Bool) :
    (CannonGetArgs.read P (depth + 2) CannonGetArgs.init).Takes (CannonGetArgs.write P ⟨req, isset⟩)
      ⟨req.whole, true⟩ := by
  refine Protocol.takes_readStruct_field rfl
    (Protocol.takes_structField rfl ((CannonRequest.takes_write fits _).bind_pure ?_))
  exact Reader.takes_pure _

/-! ## Calls -/

section Calls

variable {σ : Type} {iface : CannonIf σ}

/-- A call of the client: `get`, or a method of another interface with its arguments. -/
inductive Call (B : Type) where
  | get (req : CannonRequest) (response : CannonResponse)
  | other (fname : Text) (args : List B)

variable (P iface) in
/-- What the client sends and how it reads the reply, and what the handler says. -/
def Call.exchange : Call B → Exchange B σ (Except ApplicationException CannonResponse)
  | .get req response =>
      { request := CannonClient.sendGet P req
        recv := CannonClient.recvGet P response
        answer := fun s =>
          match iface.get CannonResponse.init req.whole s with
          | (.error what, s) => (.error ⟨ApplicationException.unknown, what⟩, s)
          | (.ok res, s) => (.ok res.whole, s) }
  | .other fname args =>
      { request := P.sendCall fname args
        recv := CannonClient.recvGet P CannonResponse.init
        answer := fun s =>
          (.error ⟨ApplicationException.unknownMethod, Protocol.invalidMethodName fname⟩, s) }

variable (P iface) in
/-- The arguments and all answers that the handler may give fit their size fields, and the
arguments of another method are some struct. -/
def Call.Valid : Call B → Prop
  | .get req _ =>
      req.Fits ∧ ∀ s,
        match (iface.get CannonResponse.init req.whole s).1 with
        | .error what => Plain what
        | .ok res => res.Fits
  | .other fname args =>
      fname ≠ "get".toList ∧ Plain fname ∧ Plain (Protocol.invalidMethodName fname) ∧
        P.Encoded recursionLimit .struct args

theorem plain_get : Plain "get".toList := plain_of_all (by decide) (by decide)

theorem Call.works {call : Call B} (valid : call.Valid P iface) :
    (call.exchange P iface).Works (CannonProcessor.process P iface) := by
  cases call with
  | get req response =>
      obtain ⟨fits, answers⟩ := valid
      have found : CannonProcessor.processMap P iface "get".toList = some (CannonProcessor.processGet P iface) :=
        if_pos rfl
      refine ⟨_, Protocol.takes_process plain_get found (CannonGetArgs.takes_write fits true), fun s => ?_⟩
      have here := answers s
      rcases called : iface.get CannonResponse.init req.whole s with ⟨outcome, next⟩
      rw [called] at here
      simp only [Call.exchange, called]
      cases outcome with
      | error what => exact ⟨Protocol.takes_recvCall_exception plain_get 0 here _, rfl⟩
      | ok res =>
          exact ⟨Protocol.takes_recvCall plain_get 0 (Protocol.takes_writeResult rfl
            (CannonResponse.takes_write here response)), rfl⟩
  | other fname args =>
      obtain ⟨different, plain, plain_message, encoded⟩ := valid
      have missing : CannonProcessor.processMap P iface fname = none := if_neg different
      exact ⟨_, Protocol.takes_process_unknown plain missing encoded,
        fun s => ⟨Protocol.takes_recvCall_exception plain 0 plain_message _, rfl⟩⟩

end Calls

end CppProject.Cannon.Interface
