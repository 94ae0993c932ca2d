import CppProject.Library.Wire

/-!
# The binary protocol

Numbers are written with their most significant byte first, strings behind their size,
and headers as a type code with a number.
-/

namespace CppProject.Library.Wire.BinaryProtocol

open Reader

abbrev Byte := BitVec 8

def cell : Reader Byte Byte where
  run
    | [] => none
    | byte :: rest => some (byte, rest)
  front := by
    intro stream value rest finished
    cases stream with
    | nil => cases finished
    | cons first tail =>
        cases finished
        exact ⟨[value], rfl, fun _ => rfl⟩

theorem takes_cells {α : Type} (items : List α) (byte : α → Byte) :
    (cell.times items.length).Takes (items.map byte) (items.map byte) := by
  have each : ∀ item ∈ items, cell.Takes [byte item] (byte item) := fun _ _ _ => rfl
  have takes := takes_times each
  rwa [← List.map_eq_flatMap] at takes

/-! ## Numbers -/

/-- The low bytes of a number, the most significant one first. -/
def putNumber : Nat → Nat → List Byte
  | 0, _ => []
  | width + 1, value => BitVec.ofNat 8 (value / 256 ^ width) :: putNumber width value

def numberFrom (high : Nat) (bytes : List Byte) : Nat :=
  bytes.foldl (fun value byte => value * 256 + byte.toNat) high

theorem length_putNumber (width value : Nat) : (putNumber width value).length = width := by
  induction width with
  | zero => rfl
  | succ width ih => rw [putNumber, List.length_cons, ih]

theorem numberFrom_putNumber (width value high : Nat) :
    numberFrom high (putNumber width value) = high * 256 ^ width + value % 256 ^ width := by
  induction width generalizing high with
  | zero => simp [numberFrom, putNumber, Nat.mod_one]
  | succ width ih =>
      have tail := ih (high * 256 + value / 256 ^ width % 256)
      rw [numberFrom] at tail
      rw [numberFrom, putNumber, List.foldl_cons, BitVec.toNat_ofNat, tail, Nat.pow_succ, Nat.mod_mul,
        Nat.add_mul, Nat.mul_assoc, Nat.mul_comm 256, Nat.mul_comm (256 ^ width) (value / _ % 256)]
      omega

/-- A number of so many bytes. -/
def number (width : Nat) : Codec Byte Nat fun value => value < 256 ^ width where
  reader := do
    let bytes ← cell.times width
    pure (numberFrom 0 bytes)
  write := putNumber width
  takes_write := by
    intro value small
    have takes := takes_cells (putNumber width value) id
    rw [length_putNumber, List.map_id] at takes
    refine takes.bind_pure ?_
    rw [numberFrom_putNumber, Nat.zero_mul, Nat.zero_add, Nat.mod_eq_of_lt small]
    exact takes_pure value

/-- A codec behind a conversion. -/
def converted {α β : Type} {Fits : α → Prop} {Also : β → Prop} (codec : Codec Byte α Fits) (down : β → α)
    (up : α → β) (back : ∀ {value}, Also value → up (down value) = value)
    (fits : ∀ {value}, Also value → Fits (down value)) : Codec Byte β Also where
  reader := do
    let value ← codec.reader
    pure (up value)
  write value := codec.write (down value)
  takes_write := by
    intro value also
    refine (codec.takes_write (fits also)).bind_pure ?_
    rw [back also]
    exact takes_pure value

def bits (width : Nat) : Codec Byte (BitVec (8 * width)) fun _ => True :=
  converted (number width) BitVec.toNat (BitVec.ofNat _)
    (fun _ => by rw [BitVec.ofNat_toNat, BitVec.setWidth_eq])
    (fun {value} _ => by
      have small := value.isLt
      rwa [Nat.pow_mul] at small)

def bool : Codec Byte Bool fun _ => True :=
  converted (bits 1) (fun value => if value then 1 else 0) (fun byte => byte ≠ 0)
    (fun {value} _ => by cases value <;> rfl) fun _ => trivial

def byte : Codec Byte Int8 fun _ => True :=
  converted (bits 1) Int8.toBitVec Int8.ofBitVec (fun _ => rfl) fun _ => trivial

def i16 : Codec Byte Int16 fun _ => True :=
  converted (bits 2) Int16.toBitVec Int16.ofBitVec (fun _ => rfl) fun _ => trivial

def i32 : Codec Byte Int32 fun _ => True :=
  converted (bits 4) Int32.toBitVec Int32.ofBitVec (fun _ => rfl) fun _ => trivial

def i64 : Codec Byte Int64 fun _ => True :=
  converted (bits 8) Int64.toBitVec Int64.ofBitVec (fun _ => rfl) fun _ => trivial

/-- A size that is negative as a signed number is refused. -/
def size : Codec Byte Nat fun size => size < sizeLimit where
  reader := do
    let size ← (number 4).reader
    if size < sizeLimit then pure size else fail
  write := (number 4).write
  takes_write := by
    intro size small
    have fits : size < 256 ^ 4 := Nat.lt_trans small (by decide)
    refine ((number 4).takes_write fits).bind_pure ?_
    rw [if_pos small]
    exact takes_pure size

/-! ## Strings -/

def binary : Codec Byte (List Byte) fun bytes => bytes.length < sizeLimit where
  reader := do
    let length ← size.reader
    cell.times length
  write bytes := size.write bytes.length ++ bytes
  takes_write := by
    intro bytes small
    have cells := takes_cells bytes id
    rw [List.map_id] at cells
    exact (size.takes_write small).bind cells

def ofChar (c : Char) : Byte := BitVec.ofNat 8 c.toNat

def toChar (byte : Byte) : Char := Char.ofNat byte.toNat

theorem toChar_ofChar {c : Char} (small : c.toNat < 256) : toChar (ofChar c) = c := by
  rw [toChar, ofChar, BitVec.toNat_ofNat, Nat.mod_eq_of_lt small, Char.ofNat_toNat]

def string : Codec Byte Text Plain :=
  converted binary (List.map ofChar) (List.map toChar)
    (fun {text} plain => by
      rw [List.map_map]
      exact (List.map_congr_left fun c member => toChar_ofChar (plain.2 c member)).trans (List.map_id text))
    fun {text} plain => by
      rw [List.length_map]
      exact plain.1

theorem takes_string_write {text : Text} (plain : Plain text) :
    ∃ bytes, binary.reader.Takes (string.write text) bytes := by
  refine ⟨text.map ofChar, binary.takes_write ?_⟩
  rw [List.length_map]
  exact plain.1

/-! ## Headers -/

def typeCode : WireType → Nat
  | .bool => 2
  | .byte => 3
  | .double => 4
  | .i16 => 6
  | .i32 => 8
  | .i64 => 10
  | .string => 11
  | .struct => 12
  | .map => 13
  | .set => 14
  | .list => 15
  | .other code => code

def typeOf : Nat → WireType
  | 2 => .bool
  | 3 => .byte
  | 4 => .double
  | 6 => .i16
  | 8 => .i32
  | 10 => .i64
  | 11 => .string
  | 12 => .struct
  | 13 => .map
  | 14 => .set
  | 15 => .list
  | code => .other code

theorem typeOf_typeCode {type : WireType} (known : type.standard = true) : typeOf (typeCode type) = type := by
  cases type <;> first | rfl | cases known

theorem typeCode_ne_zero {type : WireType} (known : type.standard = true) : typeCode type ≠ 0 := by
  cases type <;> first | decide | cases known

theorem typeCode_lt {type : WireType} (known : type.standard = true) : typeCode type < 256 ^ 1 := by
  cases type <;> first | decide | cases known

def type : Codec Byte WireType fun type => type.standard = true :=
  converted (number 1) typeCode typeOf typeOf_typeCode typeCode_lt

def fieldBegin : Codec Byte FieldHeader fun header => ∀ h, header = some h → h.1.standard = true where
  reader := do
    let code ← (number 1).reader
    if code = 0 then pure none
    else do
      let id ← i16.reader
      pure (some (typeOf code, id))
  write
    | none => putNumber 1 0
    | some (type, id) => putNumber 1 (typeCode type) ++ i16.write id
  takes_write := by
    intro header known
    cases header with
    | none => exact ((number 1).takes_write (by decide : 0 < 256 ^ 1)).bind_pure (takes_pure none)
    | some h =>
        obtain ⟨type, id⟩ := h
        have standard := known _ rfl
        refine ((number 1).takes_write (typeCode_lt standard)).bind ?_
        rw [if_neg (typeCode_ne_zero standard), typeOf_typeCode standard]
        exact (i16.takes_write trivial).bind_pure (takes_pure _)

theorem takes_fieldBegin {type : WireType} (known : type.standard = true) (id : Int16) :
    fieldBegin.reader.Takes (fieldBegin.write (some (type, id))) (some (type, id)) :=
  fieldBegin.takes_write fun _ same => by cases same; exact known

theorem takes_stop : fieldBegin.reader.Takes (fieldBegin.write none) none :=
  fieldBegin.takes_write fun _ impossible => by cases impossible

theorem fieldBegin_nonempty {taken : List Byte} {header : FieldHeader}
    (takes : fieldBegin.reader.Takes taken header) : taken ≠ [] := by
  rintro rfl
  cases takes []

def listBegin : Codec Byte (WireType × Nat) fun header =>
    header.1.standard = true ∧ header.2 < sizeLimit where
  reader := do
    let elements ← type.reader
    let count ← size.reader
    pure (elements, count)
  write header := type.write header.1 ++ size.write header.2
  takes_write := by
    intro header fits
    exact (type.takes_write fits.1).bind ((size.takes_write fits.2).bind_pure (takes_pure _))

def mapBegin : Codec Byte (WireType × WireType × Nat) fun header =>
    header.1.standard = true ∧ header.2.1.standard = true ∧ header.2.2 < sizeLimit where
  reader := do
    let keys ← type.reader
    let rest ← listBegin.reader
    pure (keys, rest)
  write header := type.write header.1 ++ listBegin.write header.2
  takes_write := by
    intro header fits
    exact (type.takes_write fits.1).bind ((listBegin.takes_write fits.2).bind_pure (takes_pure _))

/-! ## Messages -/

def messageCode : MessageType → Nat
  | .call => 1
  | .reply => 2
  | .exception => 3
  | .oneway => 4
  | .other code => code

def messageTypeOf : Nat → MessageType
  | 1 => .call
  | 2 => .reply
  | 3 => .exception
  | 4 => .oneway
  | code => .other code

/-- The version of the strict form, with the type of the message in its low byte. -/
def version (type : MessageType) : Nat := 0x80010000 + messageCode type

theorem version_standard {type : MessageType} (standard : type.standard = true) :
    version type < 256 ^ 4 ∧ ¬version type < sizeLimit ∧ version type / 65536 = 0x8001 ∧
      messageTypeOf (version type % 256) = type := by
  cases type <;> first | decide | cases standard

/-- The rest of a message that starts with its version. -/
def strictMessage (type : MessageType) : Reader Byte Message := do
  let name ← string.reader
  let seqid ← i32.reader
  pure ⟨name, type, seqid⟩

/-- The rest of a message that starts with the size of its name. -/
def oldMessage (length : Nat) : Reader Byte Message := do
  let name ← cell.times length
  let code ← (number 1).reader
  let seqid ← i32.reader
  pure ⟨name.map toChar, messageTypeOf code, seqid⟩

theorem takes_strictMessage {name : Text} (plain : Plain name) (type : MessageType) (seqid : Int32) :
    (strictMessage type).Takes (string.write name ++ i32.write seqid) ⟨name, type, seqid⟩ :=
  (string.takes_write plain).bind ((i32.takes_write trivial).bind_pure (takes_pure _))

def messageBegin : Codec Byte Message fun message =>
    message.type.standard = true ∧ Plain message.name where
  reader := do
    let first ← (number 4).reader
    if first < sizeLimit then oldMessage first
    else if first / 65536 = 0x8001 then strictMessage (messageTypeOf (first % 256))
    else fail
  write message :=
    putNumber 4 (version message.type) ++ (string.write message.name ++ i32.write message.seqid)
  takes_write := by
    intro message fits
    obtain ⟨name, type, seqid⟩ := message
    obtain ⟨standard, plain⟩ := fits
    obtain ⟨small, large, strict, same⟩ := version_standard standard
    refine ((number 4).takes_write small).bind ?_
    rw [if_neg large, if_pos strict, same]
    exact takes_strictMessage plain type seqid

theorem messageBegin_nonempty {taken : List Byte} {message : Message}
    (takes : messageBegin.reader.Takes taken message) : taken ≠ [] := by
  rintro rfl
  cases takes []

/-! ## Exceptions of the calling layer -/

/-- A struct with the message and the type, in the order in which they are written. -/
def applicationException : Codec Byte ApplicationException fun x => Plain x.message where
  reader := do
    let first ← fieldBegin.reader
    let message ← string.reader
    let second ← fieldBegin.reader
    let type ← i32.reader
    let last ← fieldBegin.reader
    if first = some (.string, 1) ∧ second = some (.i32, 2) ∧ last = none then pure ⟨type, message⟩
    else fail
  write x :=
    fieldBegin.write (some (.string, 1)) ++ (string.write x.message ++
      (fieldBegin.write (some (.i32, 2)) ++ (i32.write x.type ++ fieldBegin.write none)))
  takes_write := by
    intro x plain
    exact (takes_fieldBegin rfl 1).bind ((string.takes_write plain).bind ((takes_fieldBegin rfl 2).bind
      ((i32.takes_write trivial).bind (takes_stop.bind_pure (takes_pure x)))))

end CppProject.Library.Wire.BinaryProtocol

namespace CppProject.Library.Wire

/-- The floating point number zero has no bit set. -/
instance zeroDouble : Zero (BitVec 64) := ⟨0⟩

/-- A floating point number is written as its 64 bits. -/
def binaryCodecs : Codecs (BitVec 8) (BitVec 64) (BitVec 8) where
  bool := BinaryProtocol.bool
  byte := BinaryProtocol.byte
  i16 := BinaryProtocol.i16
  i32 := BinaryProtocol.i32
  i64 := BinaryProtocol.i64
  double := BinaryProtocol.bits 8
  binary := BinaryProtocol.binary
  string := BinaryProtocol.string
  string_binary := BinaryProtocol.takes_string_write
  fieldBegin := BinaryProtocol.fieldBegin
  fieldBegin_nonempty := BinaryProtocol.fieldBegin_nonempty
  listBegin := BinaryProtocol.listBegin
  setBegin := BinaryProtocol.listBegin
  mapBegin := BinaryProtocol.mapBegin
  messageBegin := BinaryProtocol.messageBegin
  messageBegin_nonempty := BinaryProtocol.messageBegin_nonempty
  applicationException := BinaryProtocol.applicationException

def binaryProtocol : Protocol (BitVec 8) (BitVec 64) (BitVec 8) := binaryCodecs.protocol

end CppProject.Library.Wire
