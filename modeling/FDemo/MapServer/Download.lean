import FDemo.MapServer.Assembly
import FDemo.MapServer.StreamFraming

/-! # Splitting a file into frames

The sending half of `hxFile`. A file is read whole and cut into packets of at
most 1200 bytes; the same message object is filled and serialized for each of
them. An empty file is sent as packet 1 of 1, while all others start at 0.
-/
namespace FDemo.MapServer
open Packet

/-- What leaves a handler other than by returning. -/
inductive Exception where
  /-- `std::range_error`: a path is not UTF-8 -/
  | rangeError
  /-- `std::length_error`: `size - 8` wraps -/
  | lengthError
  /-- `items(0)` of an empty list -/
  | outOfRange
  deriving DecidableEq

/-- The operating system's part in reading one file. -/
structure ReadOps where
  openRead : Bool := true
  read : Bool := true

def maxPacketSize : ℕ := 1200

/-- `for (size_t offset = 0; offset < size; offset += MaxPacketSize)`; every round takes a byte, so
`size` rounds are enough. -/
def chunkLoop (content : Bytes) : ℕ → ℕ → List Bytes
  | 0, _ => []
  | rounds + 1, offset =>
    if offset < content.length then
      (content.drop offset).take (min maxPacketSize (content.length - offset)) ::
        chunkLoop content rounds (offset + maxPacketSize)
    else []

def chunksOf (content : Bytes) : List Bytes := chunkLoop content content.length 0

namespace HxFile

/-- `filePacketMessage` once the three fields of a packet are set. -/
def filePacketMessage (f : HxFile) (content : Bytes) (num total : Int32) : Message where
  type := .file
  payload := .file
    { mapName := f.mapName, fileName := f.fileName, fileContent := content, filePacketNum := num,
      filePacketTotal := total }

def messages (f : HxFile) (packets : List Bytes) : List Message :=
  ((List.range packets.length).map fun i =>
    f.filePacketMessage (packets.getD i []) (Int32.ofNat i) (Int32.ofNat packets.length)) ++
  if packets.isEmpty then [f.filePacketMessage [] 1 1] else []

def splitToVector (f : HxFile) (pb : Protobuf) (d : Disk) (ops : ReadOps) (sendVector : List Bytes) :
    Except Exception (List Bytes) :=
  if ¬ ValidUtf8 f.fullPath then .error .rangeError
  else
    match d.files (fileAt f.fullPath) with
    | none => .ok sendVector
    | some content =>
      if ops.openRead && ops.read then
        .ok (sendVector ++ (f.messages (chunksOf content)).map fun m => toBigEndianByteStream (pb.serializeToString m))
      else .ok sendVector

end HxFile

/-- The `hxFile` that stands for a requested file. -/
def requested (mapName fileName : Bytes) : HxFile := HxFile.setFileInfo {} mapName fileName 0 []

/-- `onReceiveDownloadMapRequest`, which starts from an empty vector; the `i`-th file is read with `ops i`. -/
def onReceiveDownloadMapRequest (pb : Protobuf) (d : Disk) (ops : ℕ → ReadOps) (mapName : Bytes)
    (fileList : List Bytes) : Except Exception (List Bytes) :=
  fileList.zipIdx.foldlM (fun sendVector x => (requested mapName x.1).splitToVector pb d (ops x.2) sendVector) []

def onReceiveMapRequest (pb : Protobuf) : Bytes :=
  toBigEndianByteStream (pb.serializeToString
    { type := .maplist, payload := .itemlist { items := [utf8 "aaa",utf8 "ccc",utf8 "布鲁塞尔",utf8 "工作区"] } })

def filePath (mapName fileName : Bytes) : Bytes := mapResPath ++ mapName ++ utf8 "/" ++ fileName

/-- What the disk gives of a file that is to be read whole. -/
def readFile (d : Disk) (ops : ReadOps) (path : Bytes) : Option Bytes :=
  if ops.openRead && ops.read then d.files (fileAt path) else none

def fileFrames (pb : Protobuf) (mapName fileName content : Bytes) : List Bytes :=
  ((requested mapName fileName).messages (chunksOf content)).map fun m =>
    toBigEndianByteStream (pb.serializeToString m)

/-- The frames that one name of a download request adds. -/
def answer (pb : Protobuf) (d : Disk) (ops : ReadOps) (mapName fileName : Bytes) : List Bytes :=
  ((readFile d ops (filePath mapName fileName)).map (fileFrames pb mapName fileName)).getD []

theorem requested_eq (mapName fileName : Bytes) :
    requested mapName fileName = { mapName := mapName, fileName := fileName } :=
  HxFile.setFileInfo_of_eq rfl _ _ _ _

theorem fullPath_requested (mapName fileName : Bytes) :
    (requested mapName fileName).fullPath = filePath mapName fileName := by
  rw [requested_eq]
  rfl

theorem fileFrames_ne_nil (pb : Protobuf) (mapName fileName content : Bytes) :
    fileFrames pb mapName fileName content ≠ [] := by
  unfold fileFrames HxFile.messages
  by_cases hnil : chunksOf content = [] <;> simp [hnil]

theorem answer_eq_nil {pb : Protobuf} {d : Disk} {ops : ReadOps} {mapName fileName : Bytes} :
    answer pb d ops mapName fileName = [] ↔ readFile d ops (filePath mapName fileName) = none := by
  unfold answer
  cases readFile d ops (filePath mapName fileName) with
  | none => simp
  | some content => simpa using fileFrames_ne_nil pb mapName fileName content

theorem splitToVector_requested (pb : Protobuf) (d : Disk) (ops : ReadOps) (mapName fileName : Bytes)
    (sendVector : List Bytes) : (requested mapName fileName).splitToVector pb d ops sendVector =
      if ValidUtf8 (filePath mapName fileName) then .ok (sendVector ++ answer pb d ops mapName fileName)
      else .error .rangeError := by
  unfold HxFile.splitToVector answer readFile
  rw [fullPath_requested]
  by_cases hvalid : ValidUtf8 (filePath mapName fileName)
  · cases hfile : d.files (fileAt (filePath mapName fileName)) with
    | none => simp [hvalid]
    | some content => cases hread : ops.openRead && ops.read <;> simp [hvalid,fileFrames]
  · simp [hvalid]

/-- The answers follow each other in the order of the request, unless a path is not UTF-8. -/
theorem onReceiveDownloadMapRequest_eq (pb : Protobuf) (d : Disk) (ops : ℕ → ReadOps) (mapName : Bytes)
    (fileList : List Bytes) : onReceiveDownloadMapRequest pb d ops mapName fileList =
      if ∀ n ∈ fileList, ValidUtf8 (filePath mapName n) then
        .ok (fileList.zipIdx.flatMap fun x => answer pb d (ops x.2) mapName x.1)
      else .error .rangeError := by
  have hloop : ∀ (k : ℕ) (sendVector : List Bytes), (fileList.zipIdx k).foldlM
      (fun sendVector x => (requested mapName x.1).splitToVector pb d (ops x.2) sendVector) sendVector =
        if ∀ n ∈ fileList, ValidUtf8 (filePath mapName n) then
          Except.ok (sendVector ++ (fileList.zipIdx k).flatMap fun x => answer pb d (ops x.2) mapName x.1)
        else Except.error Exception.rangeError := by
    induction fileList with
    | nil => simp [pure,Except.pure]
    | cons n fileList ih =>
      intro k sendVector
      rw [List.zipIdx_cons,List.foldlM_cons,splitToVector_requested]
      by_cases hvalid : ValidUtf8 (filePath mapName n)
      · rw [if_pos hvalid]
        simp only [bind,Except.bind,ih,List.forall_mem_cons,hvalid,true_and,List.flatMap_cons,List.append_assoc]
      · simp [hvalid,bind,Except.bind]
  exact hloop 0 []

/-- The chunks from an offset on hold the bytes from there on. -/
theorem flatten_chunkLoop (content : Bytes) {rounds offset : ℕ} (h : content.length ≤ offset + rounds) :
    (chunkLoop content rounds offset).flatten = content.drop offset := by
  induction rounds generalizing offset with
  | zero => simpa [chunkLoop] using h
  | succ rounds ih =>
    unfold chunkLoop
    split
    · rename_i hlt
      have htake : (content.drop offset).take (min maxPacketSize (content.length - offset)) =
          (content.drop offset).take maxPacketSize := by
        rw [List.take_eq_take_iff,List.length_drop]
        omega
      rw [List.flatten_cons,ih (by unfold maxPacketSize; omega),htake,← List.drop_drop,List.take_append_drop]
    · rename_i hge
      simp [List.drop_of_length_le (Nat.not_lt.mp hge)]

@[simp] theorem flatten_chunksOf (content : Bytes) : (chunksOf content).flatten = content := by
  simp [chunksOf,flatten_chunkLoop content (Nat.le_add_left _ _)]

theorem length_chunkLoop (content : Bytes) (rounds offset : ℕ) :
    maxPacketSize * (chunkLoop content rounds offset).length < content.length - offset + maxPacketSize := by
  induction rounds generalizing offset with
  | zero => simp [chunkLoop,maxPacketSize]
  | succ rounds ih =>
    unfold chunkLoop
    split
    · have := ih (offset + maxPacketSize)
      simp only [List.length_cons,maxPacketSize] at this ⊢
      omega
    · simp [maxPacketSize]

theorem length_chunksOf_lt {content : Bytes} (h : content.length ≤ maxPacketSize * (2 ^ 31 - 1)) :
    (chunksOf content).length < 2 ^ 31 := by
  have hlen := length_chunkLoop content content.length 0
  unfold chunksOf
  unfold maxPacketSize at h hlen
  omega

theorem length_le_of_mem_chunksOf {content chunk : Bytes} (h : chunk ∈ chunksOf content) :
    chunk.length ≤ maxPacketSize := by
  have hloop : ∀ rounds offset, chunk ∈ chunkLoop content rounds offset → chunk.length ≤ maxPacketSize := by
    intro rounds
    induction rounds with
    | zero => simp [chunkLoop]
    | succ rounds ih =>
      intro offset hmem
      unfold chunkLoop at hmem
      split at hmem
      · rcases List.mem_cons.mp hmem with rfl | hmem
        · rw [List.length_take]
          omega
        · exact ih _ hmem
      · simp at hmem
  exact hloop _ _ h

theorem chunksOf_eq_nil {content : Bytes} : chunksOf content = [] ↔ content = [] := by
  constructor
  · intro h
    rw [← flatten_chunksOf content,h,List.flatten_nil]
  · rintro rfl
    rfl

end FDemo.MapServer
