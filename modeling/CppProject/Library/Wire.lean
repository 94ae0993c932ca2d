import CppProject.Library.Readers
import CppProject.Library.Text

/-!
# Self-describing wire formats

A protocol writes values with headers that announce their types, so a reader can skip a
field that it does not know.  The codecs of the primitive values are parameters; structs,
lists, sets and maps are built from them.
-/

namespace CppProject.Library.Wire

/-- The type codes of headers.  A byte that stands for no type is kept as it is. -/
inductive WireType where
  | bool
  | byte
  | i16
  | i32
  | i64
  | double
  | string
  | struct
  | map
  | set
  | list
  | other (code : Nat)
  deriving DecidableEq, Repr

def WireType.standard : WireType → Bool
  | .other _ => false
  | _ => true

inductive MessageType where
  | call
  | reply
  | exception
  | oneway
  | other (code : Nat)
  deriving DecidableEq, Repr

def MessageType.standard : MessageType → Bool
  | .other _ => false
  | _ => true

/-- A writer with the reader that takes back what it wrote, for the values that fit. -/
structure Codec (B α : Type) (Fits : α → Prop) where
  reader : Reader B α
  write : α → List B
  takes_write : ∀ {value}, Fits value → reader.Takes (write value) value

/-- A type and a number for each field: `none` is the stop. -/
abbrev FieldHeader := Option (WireType × Int16)

/-- Sizes are 32-bit numbers with a sign. -/
def sizeLimit : Nat := 2 ^ 31

/-- A string whose characters are bytes, short enough for its size field. -/
def Plain (text : Text) : Prop := text.length < sizeLimit ∧ ∀ c ∈ text, c.toNat < 256

theorem plain_of_all {text : Text} (short : text.length < sizeLimit)
    (bytes : text.all (fun c => c.toNat < 256) = true) : Plain text :=
  ⟨short, fun c member => of_decide_eq_true (List.all_eq_true.mp bytes c member)⟩

structure Message where
  name : Text
  type : MessageType
  seqid : Int32
  deriving DecidableEq, Repr

/-- An exception of the calling layer, which travels as a struct of its own. -/
structure ApplicationException where
  type : Int32
  message : Text
  deriving DecidableEq, Repr

/-- The codecs of a protocol over cells `B`, with floating point numbers `D` and bytes `Y`.  What
is written depends on nothing that was written before, headers of fields included. -/
structure Codecs (B D Y : Type) where
  bool : Codec B Bool fun _ => True
  byte : Codec B Int8 fun _ => True
  i16 : Codec B Int16 fun _ => True
  i32 : Codec B Int32 fun _ => True
  i64 : Codec B Int64 fun _ => True
  double : Codec B D fun _ => True
  binary : Codec B (List Y) fun bytes => bytes.length < sizeLimit
  string : Codec B Text Plain
  /-- A string goes over the wire as a binary value. -/
  string_binary : ∀ {text}, Plain text → ∃ bytes, binary.reader.Takes (string.write text) bytes
  fieldBegin : Codec B FieldHeader fun header => ∀ h, header = some h → h.1.standard = true
  fieldBegin_nonempty : ∀ {taken header}, fieldBegin.reader.Takes taken header → taken ≠ []
  listBegin : Codec B (WireType × Nat) fun header => header.1.standard = true ∧ header.2 < sizeLimit
  setBegin : Codec B (WireType × Nat) fun header => header.1.standard = true ∧ header.2 < sizeLimit
  mapBegin : Codec B (WireType × WireType × Nat) fun header =>
    header.1.standard = true ∧ header.2.1.standard = true ∧ header.2.2 < sizeLimit
  messageBegin : Codec B Message fun message => message.type.standard = true ∧ Plain message.name
  messageBegin_nonempty : ∀ {taken message}, messageBegin.reader.Takes taken message → taken ≠ []
  applicationException : Codec B ApplicationException fun x => Plain x.message

namespace Codecs

variable {B D Y : Type} (P : Codecs B D Y)

def fieldHeader : Reader.Header B (WireType × Int16) :=
  ⟨P.fieldBegin.reader, P.fieldBegin_nonempty⟩

/-! ## Writing -/

def stop : List B := P.fieldBegin.write none

/-- A field: its header, then its value. -/
def field (type : WireType) (id : Int16) (value : List B) : List B :=
  P.fieldBegin.write (some (type, id)) ++ value

theorem takes_stop : P.fieldBegin.reader.Takes P.stop none :=
  P.fieldBegin.takes_write fun _ impossible => by cases impossible

theorem takes_fieldBegin {type : WireType} (known : type.standard = true) (id : Int16) :
    P.fieldBegin.reader.Takes (P.fieldBegin.write (some (type, id))) (some (type, id)) :=
  P.fieldBegin.takes_write fun _ same => by cases same; exact known

/-! ## Values of any type -/

/-- The cells of a sequence of fields: headers, values, and no stop. -/
def fieldCells (fields : List (WireType × Int16 × List B)) : List B :=
  fields.flatMap fun f => P.field f.1 f.2.1 f.2.2

/-- The cells of a value of a type, nested at most so deep. -/
inductive Encoded : Nat → WireType → List B → Prop where
  | bool (depth : Nat) (value : Bool) : Encoded (depth + 1) .bool (P.bool.write value)
  | byte (depth : Nat) (value : Int8) : Encoded (depth + 1) .byte (P.byte.write value)
  | i16 (depth : Nat) (value : Int16) : Encoded (depth + 1) .i16 (P.i16.write value)
  | i32 (depth : Nat) (value : Int32) : Encoded (depth + 1) .i32 (P.i32.write value)
  | i64 (depth : Nat) (value : Int64) : Encoded (depth + 1) .i64 (P.i64.write value)
  | double (depth : Nat) (value : D) : Encoded (depth + 1) .double (P.double.write value)
  | binary (depth : Nat) {bytes : List Y} (short : bytes.length < sizeLimit) :
      Encoded (depth + 1) .string (P.binary.write bytes)
  | string (depth : Nat) {text : Text} (plain : Plain text) :
      Encoded (depth + 1) .string (P.string.write text)
  | struct {depth : Nat} {fields : List (WireType × Int16 × List B)}
      (known : ∀ f ∈ fields, f.1.standard = true) (each : ∀ f ∈ fields, Encoded depth f.1 f.2.2) :
      Encoded (depth + 1) .struct (P.fieldCells fields ++ P.stop)
  | map {depth : Nat} {keys values : WireType} {entries : List (List B × List B)}
      (known : keys.standard = true ∧ values.standard = true) (short : entries.length < sizeLimit)
      (each_key : ∀ entry ∈ entries, Encoded depth keys entry.1)
      (each_value : ∀ entry ∈ entries, Encoded depth values entry.2) :
      Encoded (depth + 1) .map (P.mapBegin.write (keys, values, entries.length) ++
        entries.flatMap fun entry => entry.1 ++ entry.2)
  | set {depth : Nat} {elements : WireType} {items : List (List B)}
      (known : elements.standard = true) (short : items.length < sizeLimit)
      (each : ∀ item ∈ items, Encoded depth elements item) :
      Encoded (depth + 1) .set (P.setBegin.write (elements, items.length) ++ items.flatMap id)
  | list {depth : Nat} {elements : WireType} {items : List (List B)}
      (known : elements.standard = true) (short : items.length < sizeLimit)
      (each : ∀ item ∈ items, Encoded depth elements item) :
      Encoded (depth + 1) .list (P.listBegin.write (elements, items.length) ++ items.flatMap id)

/-! ## Skipping values -/

/-- Read a value of a type, nested at most so deep, and drop it.  Nothing is read for a code
that is no type. -/
def skipValue : Nat → WireType → Reader B Unit
  | 0, _ => Reader.fail
  | _ + 1, .bool => P.bool.reader.drop
  | _ + 1, .byte => P.byte.reader.drop
  | _ + 1, .i16 => P.i16.reader.drop
  | _ + 1, .i32 => P.i32.reader.drop
  | _ + 1, .i64 => P.i64.reader.drop
  | _ + 1, .double => P.double.reader.drop
  | _ + 1, .string => P.binary.reader.drop
  | depth + 1, .struct => Reader.fields P.fieldHeader (fun h _ => skipValue depth h.1) ()
  | depth + 1, .map => do
      let header ← P.mapBegin.reader
      ((do skipValue depth header.1; skipValue depth header.2.1).times header.2.2).drop
  | depth + 1, .set => do
      let header ← P.setBegin.reader
      ((skipValue depth header.1).times header.2).drop
  | depth + 1, .list => do
      let header ← P.listBegin.reader
      ((skipValue depth header.1).times header.2).drop
  | _ + 1, .other _ => pure ()

variable {P}

theorem takes_drop_times {X : Type} {r : Reader B Unit} {items : List X} {cells : X → List B}
    (each : ∀ item ∈ items, r.Takes (cells item) ()) :
    (r.times items.length).drop.Takes (items.flatMap cells) () :=
  (Reader.takes_times each).drop

/-- A loop that skips its fields takes any fields that can be skipped. -/
theorem takes_skipValue_fields {depth : Nat} {fields : List (WireType × Int16 × List B)}
    (known : ∀ f ∈ fields, f.1.standard = true)
    (each : ∀ f ∈ fields, (P.skipValue depth f.1).Takes f.2.2 ()) :
    (Reader.fields P.fieldHeader (fun h _ => P.skipValue depth h.1) ()).Takes (P.fieldCells fields ++ P.stop) () := by
  refine Reader.FieldsTake.takes ?_
  induction fields with
  | nil => exact .stop P.takes_stop
  | cons f fields ih =>
      obtain ⟨here, later⟩ := List.forall_mem_cons.mp each
      obtain ⟨standard, others⟩ := List.forall_mem_cons.mp known
      rw [fieldCells, List.flatMap_cons, field, List.append_assoc, List.append_assoc]
      exact .field (P.takes_fieldBegin standard f.2.1) here (ih others later)

/-- Every value can be read and dropped by its type. -/
theorem Encoded.takes_skipValue {depth : Nat} {type : WireType} {cells : List B}
    (encoded : P.Encoded depth type cells) : (P.skipValue depth type).Takes cells () := by
  induction encoded with
  | bool depth value => exact (P.bool.takes_write trivial).drop
  | byte depth value => exact (P.byte.takes_write trivial).drop
  | i16 depth value => exact (P.i16.takes_write trivial).drop
  | i32 depth value => exact (P.i32.takes_write trivial).drop
  | i64 depth value => exact (P.i64.takes_write trivial).drop
  | double depth value => exact (P.double.takes_write trivial).drop
  | binary depth short => exact (P.binary.takes_write short).drop
  | string depth plain =>
      obtain ⟨bytes, takes⟩ := P.string_binary plain
      exact takes.drop
  | struct known _ ih => exact takes_skipValue_fields known ih
  | map known short _ _ ih_key ih_value =>
      refine (P.mapBegin.takes_write ⟨known.1, known.2, short⟩).bind ?_
      refine takes_drop_times fun entry member => ?_
      exact (ih_key entry member).bind (ih_value entry member)
  | set known short _ ih =>
      refine (P.setBegin.takes_write ⟨known, short⟩).bind ?_
      exact takes_drop_times fun item member => ih item member
  | list known short _ ih =>
      refine (P.listBegin.takes_write ⟨known, short⟩).bind ?_
      exact takes_drop_times fun item member => ih item member

variable (P) in
/-- The name and the number of a call.  A message that is no call has none. -/
def callHead : Reader B (Text × Int32) := do
  let message ← P.messageBegin.reader
  if message.type = .call ∨ message.type = .oneway then pure (message.name, message.seqid)
  else Reader.fail

theorem takes_callHead {name : Text} (plain : Plain name) (seqid : Int32) :
    P.callHead.Takes (P.messageBegin.write ⟨name, .call, seqid⟩) (name, seqid) := by
  refine (P.messageBegin.takes_write ⟨rfl, plain⟩).bind_pure ?_
  rw [if_pos (.inl rfl)]
  exact Reader.takes_pure _

end Codecs

/-- A protocol with the parts of its runtime that are not generated: what `skip` does to a
value, and what the dispatcher has read when it hands the name and the number of a call on.
Of both only what they do to well-formed cells is assumed. -/
structure Protocol (B D Y : Type) extends Codecs B D Y where
  /-- Skip a value of a type, nested at most so deep. -/
  skip : Nat → WireType → Reader B Unit
  takes_skip : ∀ {depth type cells}, toCodecs.Encoded depth type cells →
    (skip depth type).Takes cells ()
  /-- What `process` of the dispatcher reads in front of `dispatchCall`. -/
  callBegin : Reader B (Text × Int32)
  takes_callBegin : ∀ {name}, Plain name → ∀ seqid,
    callBegin.Takes (messageBegin.write ⟨name, .call, seqid⟩) (name, seqid)
  callBegin_nonempty : ∀ {taken call}, callBegin.Takes taken call → taken ≠ []

/-- Codecs with a runtime that reads and drops what it skips. -/
def Codecs.protocol {B D Y : Type} (P : Codecs B D Y) : Protocol B D Y where
  toCodecs := P
  skip := P.skipValue
  takes_skip := Codecs.Encoded.takes_skipValue
  callBegin := P.callHead
  takes_callBegin := Codecs.takes_callHead
  callBegin_nonempty := Reader.bind_nonempty P.messageBegin_nonempty

namespace Protocol

variable {B D Y S α : Type} {P : Protocol B D Y}

/-! ## Lists -/

variable (P) in
/-- The announced element type is not looked at. -/
def readList (element : Reader B α) : Reader B (List α) := do
  let header ← P.listBegin.reader
  element.times header.2

variable (P) in
def writeList (type : WireType) (write : α → List B) (values : List α) : List B :=
  P.listBegin.write (type, values.length) ++ values.flatMap write

theorem takes_writeList {β : Type} {type : WireType} {write : α → List B} {values : List α}
    {element : Reader B β} {found : α → β} (known : type.standard = true)
    (short : values.length < sizeLimit)
    (each : ∀ value ∈ values, element.Takes (write value) (found value)) :
    (P.readList element).Takes (P.writeList type write values) (values.map found) :=
  (P.listBegin.takes_write ⟨known, short⟩).bind (Reader.takes_times each)

/-- A list whose elements are read as they were written. -/
theorem takes_list {type : WireType} {write : α → List B} {values : List α} {element : Reader B α}
    (known : type.standard = true) (short : values.length < sizeLimit)
    (each : ∀ value, element.Takes (write value) value) :
    (P.readList element).Takes (P.writeList type write values) values := by
  have takes : (P.readList element).Takes (P.writeList type write values) (values.map fun value => value) :=
    takes_writeList known short fun value _ => each value
  rwa [List.map_id'] at takes

/-! ## Structs -/

variable (P) in
/-- One field of a struct: a known one is read into the struct, any other is skipped. -/
def structField (known : Nat → WireType × Int16 → Option (S → Reader B S)) (depth : Nat)
    (h : WireType × Int16) (s : S) : Reader B S :=
  match known depth h with
  | some read => read s
  | none => do
      P.skip depth h.1
      pure s

variable (P) in
/-- Read the fields of a struct into it, at most so deep. -/
def readStruct (known : Nat → WireType × Int16 → Option (S → Reader B S)) : Nat → S → Reader B S
  | 0, _ => Reader.fail
  | depth + 1, s => Reader.fields P.fieldHeader (P.structField known depth) s

variable {known : Nat → WireType × Int16 → Option (S → Reader B S)} {depth : Nat}

theorem takes_structField {h : WireType × Int16} {read : S → Reader B S} (here : known depth h = some read)
    {s next : S} {cells : List B} (takes : (read s).Takes cells next) :
    (P.structField known depth h s).Takes cells next := by
  rw [structField, here]
  exact takes

/-- A known field whose value goes into the struct. -/
theorem takes_structField_value {h : WireType × Int16} {r : Reader B α} {update : S → α → S}
    (here : known depth h = some fun s => r >>= fun value => pure (update s value)) {value : α}
    {cells : List B} (takes : r.Takes cells value) {s next : S} (same : update s value = next) :
    (P.structField known depth h s).Takes cells next := by
  rw [← same]
  exact takes_structField here (takes.bind_pure (Reader.takes_pure _))

/-- A field that the reader does not know, or that has another type there, changes nothing. -/
theorem takes_structField_unknown {h : WireType × Int16} (unknown : known depth h = none) {cells : List B}
    (encoded : P.Encoded depth h.1 cells) (s : S) : (P.structField known depth h s).Takes cells s := by
  rw [structField, unknown]
  exact (P.takes_skip encoded).bind_pure (Reader.takes_pure s)

/-- The reader takes any fields in any order, and applies what they do one after another. -/
theorem takes_readStruct {X : Type} {items : List X} {parts : X → WireType × Int16 × List B}
    {effect : S → X → S}
    (each : ∀ item ∈ items, (parts item).1.standard = true ∧ ∀ s,
      (P.structField known depth ((parts item).1, (parts item).2.1) s).Takes (parts item).2.2
        (effect s item)) (s : S) :
    (P.readStruct known (depth + 1) s).Takes (P.fieldCells (items.map parts) ++ P.stop)
      (items.foldl effect s) := by
  refine Reader.FieldsTake.takes ?_
  induction items generalizing s with
  | nil => exact .stop P.takes_stop
  | cons item items ih =>
      obtain ⟨⟨standard, here⟩, later⟩ := List.forall_mem_cons.mp each
      rw [List.map_cons, Codecs.fieldCells, List.flatMap_cons, Codecs.field, List.append_assoc, List.append_assoc]
      exact .field (P.takes_fieldBegin standard (parts item).2.1) (here s) (ih later (effect s item))

theorem takes_readStruct_stop (s : S) : (P.readStruct known (depth + 1) s).Takes (P.fieldCells [] ++ P.stop) s :=
  Reader.FieldsTake.takes (.stop P.takes_stop)

theorem takes_readStruct_cons {type : WireType} {id : Int16} {cells : List B}
    {rest : List (WireType × Int16 × List B)} {s next last : S} (standard : type.standard = true)
    (here : (P.structField known depth (type, id) s).Takes cells next)
    (further : (P.readStruct known (depth + 1) next).Takes (P.fieldCells rest ++ P.stop) last) :
    (P.readStruct known (depth + 1) s).Takes (P.fieldCells ((type, id, cells) :: rest) ++ P.stop) last := by
  refine Reader.FieldsTake.takes ?_
  rw [Codecs.fieldCells, List.flatMap_cons, Codecs.field, List.append_assoc, List.append_assoc]
  exact .field (P.takes_fieldBegin standard id) here (Reader.takes_fields_iff.mp further)

theorem takes_readStruct_field {type : WireType} {id : Int16} {cells : List B} {s next : S}
    (standard : type.standard = true) (here : (P.structField known depth (type, id) s).Takes cells next) :
    (P.readStruct known (depth + 1) s).Takes (P.fieldCells [(type, id, cells)] ++ P.stop) next :=
  takes_readStruct_cons standard here (takes_readStruct_stop next)

end Protocol

end CppProject.Library.Wire
