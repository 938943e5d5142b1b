import FDemo.Foundation.KeyedConcat
import FDemo.MapServer.Path

/-! # `hxFile`: collecting the packets of one file and saving it

The receiving half of `hxFile`. The operating system's answers to one save are
an argument: whether `QDir::mkpath` succeeds, whether the output file opens, and
how many bytes of each `write` reach the disk. Paths that lead to one place are one
file. An exception of the UTF-8 conversion is an outcome of `receive`, with the
state as it is when the exception leaves it.
-/
namespace FDemo.MapServer
open Packet

abbrev PacketMap := Finmap fun _ : Int32 => Bytes

structure HxFile where
  mapName : Bytes := []
  fileName : Bytes := []
  filePacketTotal : Int32 := 0
  filePackets : PacketMap := ∅
  fileWholeMd5 : Bytes := []
  deriving DecidableEq

/-- Directories that exist and the content of the files, by the places that the paths lead to. -/
structure Disk where
  dirs : Place → Bool
  files : Place → Option Bytes

def Disk.blank : Disk := ⟨fun _ => false,fun _ => none⟩

/-- The operating system's part in one save; `accept i` is the number of bytes of the `i`-th `write` that
reach the disk, where `none` is all of them. What the stream still holds when `close` flushes it, unchecked,
counts with its `write`. -/
structure SaveOps where
  mkpath : Bool := true
  openWrite : Bool := true
  accept : ℕ → Option ℕ := fun _ => none

/-- The directory and the file can be had, and every write reaches the disk. -/
def SaveOps.Works (save : SaveOps) : Prop :=
  save.mkpath = true ∧ save.openWrite = true ∧ ∀ i, save.accept i = none

theorem SaveOps.Works.eq {save : SaveOps} (h : save.Works) : save = {} := by
  obtain ⟨mkpath,openWrite,accept⟩ := save
  obtain ⟨rfl,rfl,haccept⟩ := h
  rw [show accept = fun _ => none from funext haccept]

theorem works_default : SaveOps.Works {} := ⟨rfl,rfl,fun _ => rfl⟩

/-- How `receive` ends. -/
inductive Receipt where
  /-- `return false`: packets are still missing -/
  | waiting
  /-- `std::range_error` from the UTF-8 conversion of the path -/
  | threw
  /-- `return false`: the output file did not open -/
  | openFailed
  /-- `return true`, with the path and the bytes that reached the disk -/
  | saved (path bytes : Bytes)
  deriving DecidableEq

namespace Receipt

def returned : Receipt → Option Bool
  | waiting => some false
  | threw => none
  | openFailed => some false
  | saved _ _ => some true

def done : Receipt → Bool
  | saved _ _ => true
  | _ => false

/-- What a successful `receive` wrote, and where. -/
def save : Receipt → Option (Bytes × Bytes)
  | saved path bytes => some (path,bytes)
  | _ => none

def attempted : Receipt → Bool
  | waiting => false
  | _ => true

end Receipt

/-- A `std::ofstream` opened on an empty file. -/
structure Ofstream where
  good : Bool := true
  written : Bytes := []

/-- A write that is not taken whole sets `badbit`, and a bad stream writes nothing. -/
def Ofstream.write (s : Ofstream) (accept : Option ℕ) (data : Bytes) : Ofstream :=
  if s.good then
    match accept with
    | none => ⟨true,s.written ++ data⟩
    | some k => ⟨decide (data.length ≤ k),s.written ++ data.take k⟩
  else s

/-- `std::map::operator[]`: a missing number is inserted with an empty packet. -/
def subscript (m : PacketMap) (i : Int32) : PacketMap := if i ∈ m then m else m.insert i []

namespace HxFile

def fullPath (f : HxFile) : Bytes := mapResPath ++ f.mapName ++ utf8 "/" ++ f.fileName

def dirPath (f : HxFile) : Bytes := mapResPath ++ f.mapName

def setFileInfo (f : HxFile) (mapName fileName : Bytes) (packetTotal : Int32) (fileMd5 : Bytes) : HxFile :=
  if f.fileName ≠ [] then f
  else { f with mapName := mapName, fileName := fileName, filePacketTotal := packetTotal, fileWholeMd5 := fileMd5 }

def ensureDirectoryExists (f : HxFile) (ops : SaveOps) (d : Disk) : Disk :=
  if d.dirs (resolve f.dirPath) then d
  else if ops.mkpath then { d with dirs := Function.update d.dirs (resolve f.dirPath) true }
  else d

/-- The body of the write loop for the index `i`. -/
def writePacket (ops : SaveOps) (s : PacketMap × Ofstream) (i : ℕ) : PacketMap × Ofstream :=
  let packets := subscript s.1 (Int32.ofNat i)
  (packets,s.2.write (ops.accept i) (entryOr packets (Int32.ofNat i)))

/-- `for (int i = 0; i < file_packet_total; ++i)`. -/
def writePackets (f : HxFile) (ops : SaveOps) : PacketMap × Ofstream :=
  (List.range f.filePacketTotal.toInt.toNat).foldl (writePacket ops) (f.filePackets,{})

/-- Opening truncates; the stream is not looked at again after the writes. -/
def assembleAndSaveFile (f : HxFile) (ops : SaveOps) (d : Disk) : HxFile × Disk × Receipt :=
  if ¬ ValidUtf8 f.fullPath then (f,d,.threw)
  else if ops.openWrite then
    let written := (f.writePackets ops).2.written
    ({ f with filePackets := ∅ },{ d with files := Function.update d.files (fileAt f.fullPath) (some written) },
      .saved f.fullPath written)
  else (f,d,.openFailed)

def receive (f : HxFile) (packetNum : Int32) (content : Bytes) (ops : SaveOps) (d : Disk) :
    HxFile × Disk × Receipt :=
  let f := { f with filePackets := f.filePackets.insert packetNum content }
  -- `size_t` against `int`: the total is converted to `size_t`; too many packets are only logged
  if f.filePackets.keys.card < sizeOfInt f.filePacketTotal then (f,d,.waiting)
  else f.assembleAndSaveFile ops (f.ensureDirectoryExists ops d)

end HxFile
end FDemo.MapServer
