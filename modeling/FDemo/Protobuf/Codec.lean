import FDemo.Protobuf.Message
import FDemo.Protobuf.Wire

/-! # The generated code of `header.pb.cc`

For every message its `switch` over tags and its serializer. The tags are the
numbers in the generated comparisons. What was serialized parses to the same
message when its strings are UTF-8 and it stays below the size limit.
-/
namespace FDemo.Packet
open Wire

def recursionLimit : ℕ := 100

namespace Heartbeat

def field : ℕ → Option (FieldCase Heartbeat)
  | 10 => some (stringField fun m s => { m with nodeId := s })
  | _ => none

def serialize (m : Heartbeat) : Bytes := writeString 10 m.nodeId

end Heartbeat

namespace Itemlist

/-- An item is added before it is read. -/
def itemField : FieldCase Itemlist := fun r m bs =>
  stringField (fun m s => { m with items := m.items.dropLast ++ [s] }) r { m with items := m.items ++ [[]] } bs

def field : ℕ → Option (FieldCase Itemlist)
  | 10 => some itemField
  | _ => none

def serialize (m : Itemlist) : Bytes := m.items.flatMap (writeLengthDelimited 10)

end Itemlist

namespace Location

def field : ℕ → Option (FieldCase Location)
  | 9 => some (doubleField fun m v => { m with x := v })
  | 17 => some (doubleField fun m v => { m with y := v })
  | 25 => some (doubleField fun m v => { m with yaw := v })
  | _ => none

def serialize (m : Location) : Bytes := writeDouble 9 m.x ++ writeDouble 17 m.y ++ writeDouble 25 m.yaw

end Location

namespace File

/-- `file_content` is not checked to be UTF-8. -/
def field : ℕ → Option (FieldCase File)
  | 10 => some (stringField fun m s => { m with mapName := s })
  | 18 => some (stringField fun m s => { m with fileName := s })
  | 26 => some (bytesField fun m s => { m with fileContent := s })
  | 32 => some (int32Field fun m v => { m with filePacketNum := v })
  | 40 => some (int32Field fun m v => { m with filePacketTotal := v })
  | 50 => some (stringField fun m s => { m with wholeFileMd5 := s })
  | _ => none

def serialize (m : File) : Bytes :=
  writeString 10 m.mapName ++ writeString 18 m.fileName ++ writeString 26 m.fileContent ++
    writeInt32 32 m.filePacketNum ++ writeInt32 40 m.filePacketTotal ++ writeString 50 m.wholeFileMd5

end File

namespace FileTransferStatus

def field : ℕ → Option (FieldCase FileTransferStatus)
  | 8 => some (int32Field fun m v => { m with currentPacketIndex := v })
  | 16 => some (int32Field fun m v => { m with totalPackets := v })
  | 26 => some (stringField fun m s => { m with currentFileName := s })
  | _ => none

def serialize (m : FileTransferStatus) : Bytes :=
  writeInt32 8 m.currentPacketIndex ++ writeInt32 16 m.totalPackets ++ writeString 26 m.currentFileName

end FileTransferStatus

namespace Payload

/-! `_internal_mutable_x`: the member of the `oneof`, created when another one is set. -/

def mutableHeartbeat : Payload → Heartbeat
  | .heartbeat m => m
  | _ => {}

def mutableItemlist : Payload → Itemlist
  | .itemlist m => m
  | _ => {}

def mutableLocation : Payload → Location
  | .location m => m
  | _ => {}

def mutableFile : Payload → File
  | .file m => m
  | _ => {}

def mutableFileTransferStatus : Payload → FileTransferStatus
  | .fileTransferStatus m => m
  | _ => {}

def serialize : Payload → Bytes
  | .notSet => []
  | .heartbeat m => writeLengthDelimited 18 m.serialize
  | .itemlist m => writeLengthDelimited 26 m.serialize
  | .location m => writeLengthDelimited 34 m.serialize
  | .file m => writeLengthDelimited 42 m.serialize
  | .fileTransferStatus m => writeLengthDelimited 50 m.serialize

end Payload

namespace Message

/-- A message inside has one level of recursion less. -/
def payloadField {τ : Type} (field : ℕ → Option (FieldCase τ)) (mutable : Payload → τ) (put : τ → Payload) :
    FieldCase Message :=
  messageField (recursionLimit - 1) field (fun m => mutable m.payload) fun m v => { m with payload := put v }

def field : ℕ → Option (FieldCase Message)
  | 8 => some (enumField fun m v => { m with type := ⟨v⟩ })
  | 18 => some (payloadField Heartbeat.field Payload.mutableHeartbeat .heartbeat)
  | 26 => some (payloadField Itemlist.field Payload.mutableItemlist .itemlist)
  | 34 => some (payloadField Location.field Payload.mutableLocation .location)
  | 42 => some (payloadField File.field Payload.mutableFile .file)
  | 50 => some (payloadField FileTransferStatus.field Payload.mutableFileTransferStatus .fileTransferStatus)
  | _ => none

def serialize (m : Message) : Bytes := writeInt32 8 m.type.value ++ m.payload.serialize

/-- `ParseFromString` clears the message first. -/
def parseFromString (bs : Bytes) : Message × Bool := parse recursionLimit field {} bs

/-- `SerializeToString`, which leaves the string empty above `INT_MAX`. -/
def serializeToString (m : Message) : Bytes := if m.serialize.length ≤ 2 ^ 31 - 1 then m.serialize else []

end Message

/-- The protobuf runtime with the generated code. -/
def packetCodec : Protobuf := ⟨Message.parseFromString,Message.serializeToString⟩

/-- The strings of a message are UTF-8. -/
def Payload.Utf8 : Payload → Prop
  | .notSet => True
  | .heartbeat m => ValidUtf8 m.nodeId
  | .itemlist m => ∀ s ∈ m.items, ValidUtf8 s
  | .location _ => True
  | .file m => m.Utf8
  | .fileTransferStatus m => ValidUtf8 m.currentFileName

section Parses
variable {depth : ℕ}

theorem Heartbeat.parses {m : Heartbeat} (hutf8 : ValidUtf8 m.nodeId) (hlen : m.serialize.length ≤ 2 ^ 31 - 1 - 16) :
    Parses depth Heartbeat.field m.serialize {} m :=
  .string (by decide) rfl rfl (fun h => by rw [h])
    ((length_le_writeString _ _).trans hlen) hutf8

theorem Itemlist.item_parses (l : Itemlist) {s : Bytes} (hutf8 : ValidUtf8 s) (hlen : s.length ≤ 2 ^ 31 - 1 - 16) :
    Parses depth Itemlist.field (writeLengthDelimited 10 s) l { items := l.items ++ [s] } := by
  have hfield : Itemlist.field (10 : UInt8).toNat = some itemField := rfl
  refine .single (by decide) hfield fun r rest hslop => ?_
  rw [itemField,stringField,List.append_assoc,readSize_writeVarint hlen]
  simp only [readString_append r s hslop,if_pos hutf8,List.dropLast_concat]

theorem Itemlist.parses {m : Itemlist} (hutf8 : ∀ s ∈ m.items, ValidUtf8 s)
    (hlen : m.serialize.length ≤ 2 ^ 31 - 1 - 16) : Parses depth Itemlist.field m.serialize {} m := by
  have hitems : ∀ (l : Itemlist) (items : List Bytes), (∀ s ∈ items, ValidUtf8 s) →
      (items.flatMap (writeLengthDelimited 10)).length ≤ 2 ^ 31 - 1 - 16 →
      Parses depth Itemlist.field (items.flatMap (writeLengthDelimited 10)) l { items := l.items ++ items } := by
    intro l items
    induction items generalizing l with
    | nil =>
      intro _ _
      simpa using Parses.nil l
    | cons s items ih =>
      intro hutf8 hlen
      rw [List.flatMap_cons,List.length_append] at hlen
      have hs := length_le_writeLengthDelimited 10 s
      have hfirst : Parses depth Itemlist.field (writeLengthDelimited 10 s) l { items := l.items ++ [s] } :=
        item_parses l (hutf8 s List.mem_cons_self) (by omega)
      have hrest := ih { items := l.items ++ [s] } (fun t ht => hutf8 t (List.mem_cons_of_mem _ ht)) (by omega)
      simpa using hfirst.append hrest
  exact hitems {} m.items hutf8 hlen

theorem Location.parses (m : Location) : Parses depth Location.field m.serialize {} m := by
  have hx : Parses depth Location.field (writeDouble 9 m.x) {} { x := m.x } :=
    .double (by decide) rfl rfl (fun h => by rw [h])
  have hy : Parses depth Location.field (writeDouble 17 m.y) { x := m.x } { x := m.x, y := m.y } :=
    .double (by decide) rfl rfl (fun h => by rw [h])
  have hyaw : Parses depth Location.field (writeDouble 25 m.yaw) { x := m.x, y := m.y } m :=
    .double (by decide) rfl rfl (fun h => by rw [h])
  exact (hx.append hy).append hyaw

theorem File.parses {m : File} (hutf8 : m.Utf8) (hlen : m.serialize.length ≤ 2 ^ 31 - 1 - 16) :
    Parses depth File.field m.serialize {} m := by
  have hmap := length_le_writeString 10 m.mapName
  have hfile := length_le_writeString 18 m.fileName
  have hcontent := length_le_writeString 26 m.fileContent
  have hmd5 := length_le_writeString 50 m.wholeFileMd5
  simp only [File.serialize,List.length_append] at hlen
  have h₁ : Parses depth File.field (writeString 10 m.mapName) {} { mapName := m.mapName } :=
    .string (by decide) rfl rfl (fun h => by rw [h]) (by omega) hutf8.mapName
  have h₂ : Parses depth File.field (writeString 18 m.fileName) { mapName := m.mapName }
      { mapName := m.mapName, fileName := m.fileName } :=
    .string (by decide) rfl rfl (fun h => by rw [h]) (by omega) hutf8.fileName
  have h₃ : Parses depth File.field (writeString 26 m.fileContent) { mapName := m.mapName, fileName := m.fileName }
      { mapName := m.mapName, fileName := m.fileName, fileContent := m.fileContent } :=
    .bytes (by decide) rfl rfl (fun h => by rw [h]) (by omega)
  have h₄ : Parses depth File.field (writeInt32 32 m.filePacketNum)
      { mapName := m.mapName, fileName := m.fileName, fileContent := m.fileContent }
      { mapName := m.mapName, fileName := m.fileName, fileContent := m.fileContent,
        filePacketNum := m.filePacketNum } :=
    .int32 (by decide) rfl rfl (fun h => by rw [h])
  have h₅ : Parses depth File.field (writeInt32 40 m.filePacketTotal)
      { mapName := m.mapName, fileName := m.fileName, fileContent := m.fileContent,
        filePacketNum := m.filePacketNum }
      { mapName := m.mapName, fileName := m.fileName, fileContent := m.fileContent,
        filePacketNum := m.filePacketNum, filePacketTotal := m.filePacketTotal } :=
    .int32 (by decide) rfl rfl (fun h => by rw [h])
  have h₆ : Parses depth File.field (writeString 50 m.wholeFileMd5)
      { mapName := m.mapName, fileName := m.fileName, fileContent := m.fileContent,
        filePacketNum := m.filePacketNum, filePacketTotal := m.filePacketTotal } m :=
    .string (by decide) rfl rfl (fun h => by rw [h]) (by omega)
      hutf8.wholeFileMd5
  exact ((((h₁.append h₂).append h₃).append h₄).append h₅).append h₆

theorem FileTransferStatus.parses {m : FileTransferStatus} (hutf8 : ValidUtf8 m.currentFileName)
    (hlen : m.serialize.length ≤ 2 ^ 31 - 1 - 16) : Parses depth FileTransferStatus.field m.serialize {} m := by
  have hname := length_le_writeString 26 m.currentFileName
  simp only [FileTransferStatus.serialize,List.length_append] at hlen
  have h₁ : Parses depth FileTransferStatus.field (writeInt32 8 m.currentPacketIndex) {}
      { currentPacketIndex := m.currentPacketIndex } :=
    .int32 (by decide) rfl rfl (fun h => by rw [h])
  have h₂ : Parses depth FileTransferStatus.field (writeInt32 16 m.totalPackets)
      { currentPacketIndex := m.currentPacketIndex }
      { currentPacketIndex := m.currentPacketIndex, totalPackets := m.totalPackets } :=
    .int32 (by decide) rfl rfl (fun h => by rw [h])
  have h₃ : Parses depth FileTransferStatus.field (writeString 26 m.currentFileName)
      { currentPacketIndex := m.currentPacketIndex, totalPackets := m.totalPackets } m :=
    .string (by decide) rfl rfl (fun h => by rw [h]) (by omega) hutf8
  exact (h₁.append h₂).append h₃

theorem Payload.parses {p : Payload} (hutf8 : p.Utf8) (hlen : p.serialize.length ≤ 2 ^ 31 - 1 - 16)
    (type : MessageType) : Parses recursionLimit Message.field p.serialize { type := type } ⟨type,p⟩ := by
  have hinner : ∀ (tag : UInt8) (bs : Bytes), (writeLengthDelimited tag bs).length ≤ 2 ^ 31 - 1 - 16 →
      bs.length ≤ 2 ^ 31 - 1 - 16 := fun tag bs h => (length_le_writeLengthDelimited tag bs).trans h
  cases p with
  | notSet => exact .nil _
  | heartbeat m => exact .message (by decide) rfl rfl (hinner _ _ hlen) (Heartbeat.parses hutf8 (hinner _ _ hlen))
  | itemlist m => exact .message (by decide) rfl rfl (hinner _ _ hlen) (Itemlist.parses hutf8 (hinner _ _ hlen))
  | location m => exact .message (by decide) rfl rfl (hinner _ _ hlen) (Location.parses m)
  | file m => exact .message (by decide) rfl rfl (hinner _ _ hlen) (File.parses hutf8 (hinner _ _ hlen))
  | fileTransferStatus m =>
    exact .message (by decide) rfl rfl (hinner _ _ hlen) (FileTransferStatus.parses hutf8 (hinner _ _ hlen))

end Parses

/-- What the generated code serializes, it parses to the same message. -/
theorem packetCodec_inverts {m : Message} (hutf8 : m.payload.Utf8) (hlen : m.serialize.length ≤ 2 ^ 31 - 1 - 16) :
    packetCodec.Inverts m := by
  have hpayload : m.payload.serialize.length ≤ 2 ^ 31 - 1 - 16 := by
    simp only [Message.serialize,List.length_append] at hlen
    omega
  have htype : Parses recursionLimit Message.field (writeInt32 8 m.type.value) {} { type := m.type } :=
    .enum (by decide) rfl rfl (fun h => by rw [h])
  have hparses : Parses recursionLimit Message.field m.serialize {} m :=
    htype.append (Payload.parses hutf8 hpayload m.type)
  have hsize : m.serialize.length ≤ 2 ^ 31 - 1 := hlen.trans (Nat.sub_le _ _)
  simp only [Protobuf.Inverts,packetCodec,Message.serializeToString,if_pos hsize,Message.parseFromString]
  exact hparses.parse_eq

theorem File.length_serialize_le (m : File) : m.serialize.length ≤
    46 + m.mapName.length + m.fileName.length + m.fileContent.length + m.wholeFileMd5.length := by
  have hmap := length_writeString_le 10 m.mapName
  have hfile := length_writeString_le 18 m.fileName
  have hcontent := length_writeString_le 26 m.fileContent
  have hnum := length_writeInt32_le 32 m.filePacketNum
  have htotal := length_writeInt32_le 40 m.filePacketTotal
  have hmd5 := length_writeString_le 50 m.wholeFileMd5
  simp only [File.serialize,List.length_append]
  omega

/-- A file message is parsed back unless its strings are huge. -/
theorem packetCodec_inverts_file {m : File} (hutf8 : m.Utf8)
    (hlen : m.mapName.length + m.fileName.length + m.fileContent.length + m.wholeFileMd5.length ≤ 2 ^ 31 - 100)
    (type : MessageType) : packetCodec.Inverts ⟨type,.file m⟩ := by
  have htype := length_writeInt32_le 8 type.value
  have hfile := m.length_serialize_le
  have hpayload := length_writeLengthDelimited_le 42 m.serialize
  refine packetCodec_inverts hutf8 ?_
  simp only [Message.serialize,Payload.serialize,List.length_append]
  omega

end FDemo.Packet
