import FDemo.Foundation.Bytes

/-! # The messages of package `packet`

The message types of `header.proto`, with the field defaults of proto3. Strings
and byte fields are byte lists; a `double` is kept as its 64 bits. The enum is
open: any `int32` may arrive in `type`.
-/
namespace FDemo.Packet

structure Heartbeat where
  nodeId : Bytes := []
  deriving DecidableEq

structure Itemlist where
  items : List Bytes := []
  deriving DecidableEq

structure Location where
  x : UInt64 := 0
  y : UInt64 := 0
  yaw : UInt64 := 0
  deriving DecidableEq

structure File where
  mapName : Bytes := []
  fileName : Bytes := []
  fileContent : Bytes := []
  filePacketNum : Int32 := 0
  filePacketTotal : Int32 := 0
  wholeFileMd5 : Bytes := []
  deriving DecidableEq

structure FileTransferStatus where
  currentPacketIndex : Int32 := 0
  totalPackets : Int32 := 0
  currentFileName : Bytes := []
  deriving DecidableEq

/-- An open proto3 enum: the named values and every other `int32`. -/
structure MessageType where
  value : Int32 := 0
  deriving DecidableEq

namespace MessageType

def unknown : MessageType := ⟨0⟩
def heartbeat : MessageType := ⟨1⟩
def maplist : MessageType := ⟨2⟩
def location : MessageType := ⟨3⟩
def file : MessageType := ⟨4⟩
def fileTransferStatus : MessageType := ⟨5⟩

end MessageType

/-- The `oneof payload`. -/
inductive Payload where
  | notSet
  | heartbeat (m : Heartbeat)
  | itemlist (m : Itemlist)
  | location (m : Location)
  | file (m : File)
  | fileTransferStatus (m : FileTransferStatus)
  deriving DecidableEq

structure Message where
  type : MessageType := {}
  payload : Payload := .notSet
  deriving DecidableEq

/-- The names a `File` carries are `string` fields, which a successful parse has checked. -/
structure File.Utf8 (f : File) : Prop where
  mapName : ValidUtf8 f.mapName
  fileName : ValidUtf8 f.fileName
  wholeFileMd5 : ValidUtf8 f.wholeFileMd5

/-- What the server relies on of the protobuf runtime: `ParseFromString` leaves a message behind
also when it returns false. -/
structure Protobuf where
  parseFromString : Bytes → Message × Bool
  serializeToString : Message → Bytes

/-- Parsing what was serialized gives the message back. -/
def Protobuf.Inverts (pb : Protobuf) (m : Message) : Prop :=
  pb.parseFromString (pb.serializeToString m) = (m,true)

instance (pb : Protobuf) (m : Message) : Decidable (pb.Inverts m) := inferInstanceAs (Decidable (_ = _))

end FDemo.Packet
