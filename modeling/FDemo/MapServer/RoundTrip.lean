import FDemo.MapServer.FullUpload
import FDemo.MapServer.Handler
import FDemo.MapServer.Transfers
import FDemo.Protobuf.Codec

/-! # What is downloaded can be uploaded

The frames that a download puts together are the packets of one transfer for
every file. Delivered to a server with nothing pending, in any order, they write
the files back.
-/
namespace FDemo.MapServer
open Packet Mealy

/-- The file packets that `splitToVector` serializes. -/
def splitFiles (mapName fileName content : Bytes) : List File :=
  ((List.range (chunksOf content).length).map fun i =>
    { mapName := mapName, fileName := fileName, fileContent := (chunksOf content).getD i [],
      filePacketNum := Int32.ofNat i, filePacketTotal := Int32.ofNat (chunksOf content).length }) ++
  if (chunksOf content).isEmpty then
    [{ mapName := mapName, fileName := fileName, filePacketNum := 1, filePacketTotal := 1 }]
  else []

def splitInfo (mapName fileName content : Bytes) : FileInfo :=
  ⟨mapName,fileName,if content = [] then 1 else Int32.ofNat (chunksOf content).length,[]⟩

def fileMessage (file : File) : Message := { type := .file, payload := .file file }

theorem messages_eq (mapName fileName content : Bytes) :
    (requested mapName fileName).messages (chunksOf content) =
      (splitFiles mapName fileName content).map fileMessage := by
  rw [requested_eq]
  by_cases hnil : (chunksOf content).isEmpty
  · simp [HxFile.messages,splitFiles,hnil,HxFile.filePacketMessage,fileMessage,Function.comp_def]
  · simp [HxFile.messages,splitFiles,hnil,HxFile.filePacketMessage,fileMessage,Function.comp_def]

section Split
variable {mapName fileName content : Bytes}

theorem splitFiles_nil : splitFiles mapName fileName [] =
    [{ mapName := mapName, fileName := fileName, filePacketNum := 1, filePacketTotal := 1 }] := rfl

def splitUpload (hmap : ValidUtf8 mapName) (hfile : ValidUtf8 fileName) (hne : content ≠ [])
    (hsize : content.length ≤ maxPacketSize * (2 ^ 31 - 1)) : FullUpload where
  mapName := mapName
  fileName := fileName
  wholeFileMd5 := []
  chunks := chunksOf content
  chunks_ne_nil := fun h => hne (chunksOf_eq_nil.mp h)
  length_lt := length_chunksOf_lt hsize
  mapName_utf8 := hmap
  fileName_utf8 := hfile

theorem splitFiles_eq_packets (hmap : ValidUtf8 mapName) (hfile : ValidUtf8 fileName) (hne : content ≠ [])
    (hsize : content.length ≤ maxPacketSize * (2 ^ 31 - 1)) :
    splitFiles mapName fileName content = (splitUpload hmap hfile hne hsize).packets := by
  have hchunks : chunksOf content ≠ [] := fun h => hne (chunksOf_eq_nil.mp h)
  simp [splitFiles,hchunks,FullUpload.packets,FullUpload.packet,FullUpload.chunk,splitUpload]

/-- The packets of a split file are a transfer of its content. -/
theorem transfer_splitFiles (hmap : ValidUtf8 mapName) (hfile : ValidUtf8 fileName)
    (hsize : content.length ≤ maxPacketSize * (2 ^ 31 - 1)) :
    Transfer (splitInfo mapName fileName content) (splitFiles mapName fileName content) ∧
      Transfer.bytes (splitInfo mapName fileName content) (splitFiles mapName fileName content) = content := by
  by_cases hnil : content = []
  · subst hnil
    refine ⟨⟨?_,?_,?_,?_,?_⟩,?_⟩
    · intro w hw
      rw [splitFiles_nil] at hw
      rw [List.mem_singleton.mp hw]
      rfl
    · simp [splitFiles_nil,numbers]
    · rfl
    · simp [splitFiles_nil]
    · exact mapResPath_utf8 hmap hfile
    · rw [Transfer.bytes,collecting,opened_none]
      simp only [splitInfo,↓reduceIte,HxFile.assembled,splitFiles_nil]
      rfl
  · have hu := (splitUpload hmap hfile hnil hsize).transfer
    have hbytes := (splitUpload hmap hfile hnil hsize).bytes_eq
    have hinfo : splitInfo mapName fileName content = (splitUpload hmap hfile hnil hsize).info := by
      simp [splitInfo,hnil,FullUpload.info,splitUpload]
    rw [hinfo,splitFiles_eq_packets hmap hfile hnil hsize]
    exact ⟨hu,hbytes.trans (flatten_chunksOf content)⟩

theorem fileName_of_mem_splitFiles {w : File} (hw : w ∈ splitFiles mapName fileName content) :
    w.fileName = fileName := by
  unfold splitFiles at hw
  rcases List.mem_append.mp hw with h | h
  · obtain ⟨i,-,rfl⟩ := List.mem_map.mp h
    rfl
  · split at h
    · rw [List.mem_singleton.mp h]
    · simp at h

/-- The generated code parses the packets of a split file back. -/
theorem packetCodec_inverts_splitFiles (hmap : ValidUtf8 mapName) (hfile : ValidUtf8 fileName)
    (hlen : mapName.length + fileName.length ≤ 2 ^ 31 - 1300) {w : File}
    (hw : w ∈ splitFiles mapName fileName content) : packetCodec.Inverts (fileMessage w) := by
  have hpacket : maxPacketSize = 1200 := rfl
  unfold splitFiles at hw
  rcases List.mem_append.mp hw with h | h
  · obtain ⟨i,hi,rfl⟩ := List.mem_map.mp h
    have hlt := List.mem_range.mp hi
    have hchunk : ((chunksOf content).getD i []).length ≤ maxPacketSize := by
      rw [List.getD_eq_getElem?_getD,List.getElem?_eq_getElem hlt,Option.getD_some]
      exact length_le_of_mem_chunksOf (List.getElem_mem hlt)
    refine packetCodec_inverts_file ⟨hmap,hfile,validUtf8_nil⟩ ?_ .file
    simp only [List.length_nil]
    omega
  · split at h
    · rw [List.mem_singleton.mp h]
      refine packetCodec_inverts_file ⟨hmap,hfile,validUtf8_nil⟩ ?_ .file
      simp only [List.length_nil]
      omega
    · simp at h

end Split

/-- The handler for one frame after the other; the save that the `i`-th may start gets the answers `save i`. -/
def deliver (pb : Protobuf) (s : Server) (save : ℕ → SaveOps) (frames : List Bytes) : Server :=
  frames.zipIdx.foldl (fun s x => (tcpOnMessage pb s (fun _ => {}) (save x.2) x.1).server) s

/-- How `receive` ends for a frame, if it is called. -/
def receiptFor (pb : Protobuf) (s : Server) (save : SaveOps) (buf : Bytes) : Option Receipt :=
  (tcpOnMessage pb s (fun _ => {}) save buf).receipt

def fileOf (pb : Protobuf) (buf : Bytes) : File :=
  match (pb.parseFromString (stripHeader buf)).1.payload with
  | .file file => file
  | _ => {}

section Frames
variable {pb : Protobuf}

/-- A frame that carries a file packet. -/
structure CarriesFile (pb : Protobuf) (buf : Bytes) : Prop where
  header : headBodyLength ≤ buf.length
  message : (pb.parseFromString (stripHeader buf)).1 = fileMessage (fileOf pb buf)

theorem tcpOnMessage_file {buf : Bytes} (h : CarriesFile pb buf) (s : Server) (save : SaveOps) :
    tcpOnMessage pb s (fun _ => {}) save buf = onFile s save (fileOf pb buf) := by
  have hlen : ¬ buf.length < headBodyLength := Nat.not_lt.mpr h.header
  have htype : ¬ MessageType.file = MessageType.maplist := by decide
  simp only [tcpOnMessage,hlen,↓reduceIte,h.message,dispatch,fileMessage,htype]

theorem deliver_eq_run {frames : List Bytes} (h : ∀ buf ∈ frames, CarriesFile pb buf) {save : ℕ → SaveOps}
    (hsave : ∀ i, (save i).Works) (s : Server) :
    deliver pb s save frames = s.run ((frames.map (fileOf pb)).map succeeding) := by
  have hloop : ∀ k s, (frames.zipIdx k).foldl (fun s x => (tcpOnMessage pb s (fun _ => {}) (save x.2) x.1).server) s =
      s.run ((frames.map (fileOf pb)).map succeeding) := by
    induction frames with
    | nil => exact fun _ _ => rfl
    | cons buf frames ih =>
      intro k s
      have hfirst := tcpOnMessage_file (h buf List.mem_cons_self) s (save k)
      rw [(hsave k).eq] at hfirst
      rw [List.zipIdx_cons,List.foldl_cons,(hsave k).eq,hfirst]
      exact ih (fun b hb => h b (List.mem_cons_of_mem _ hb)) (k + 1) _
  exact hloop 0 s

theorem frame_carriesFile {file : File} (hpb : pb.Inverts (fileMessage file)) :
    CarriesFile pb (toBigEndianByteStream (pb.serializeToString (fileMessage file))) ∧
      fileOf pb (toBigEndianByteStream (pb.serializeToString (fileMessage file))) = file := by
  have hparse : (pb.parseFromString (stripHeader
      (toBigEndianByteStream (pb.serializeToString (fileMessage file))))).1 = fileMessage file := by
    rw [stripHeader_toBigEndianByteStream,hpb]
  have hfile : fileOf pb (toBigEndianByteStream (pb.serializeToString (fileMessage file))) = file := by
    simp only [fileOf,hparse]
    rfl
  exact ⟨⟨by simp [headBodyLength],by rw [hfile]; exact hparse⟩,hfile⟩

end Frames

section Names
variable {names : List Bytes} {mapName : Bytes} {content : Bytes → Bytes}

def allFiles (mapName : Bytes) (names : List Bytes) (content : Bytes → Bytes) : List File :=
  names.flatMap fun n => splitFiles mapName n (content n)

theorem mem_allFiles {w : File} (hw : w ∈ allFiles mapName names content) :
    w.fileName ∈ names ∧ w ∈ splitFiles mapName w.fileName (content w.fileName) := by
  obtain ⟨n,hn,hwn⟩ := List.mem_flatMap.mp hw
  obtain rfl := fileName_of_mem_splitFiles hwn
  exact ⟨hn,hwn⟩

theorem named_allFiles (hnodup : names.Nodup) {n : Bytes} (hn : n ∈ names) :
    named n (allFiles mapName names content) = splitFiles mapName n (content n) := by
  induction names with
  | nil => simp at hn
  | cons m names ih =>
    obtain ⟨hm,hnodup⟩ := List.nodup_cons.mp hnodup
    have hcons : named n (allFiles mapName (m :: names) content) =
        named n (splitFiles mapName m (content m)) ++ named n (allFiles mapName names content) := by
      simp [allFiles,named,List.filter_append]
    rw [hcons]
    rcases List.mem_cons.mp hn with rfl | hn
    · have hrest : named n (allFiles mapName names content) = [] := by
        apply List.filter_eq_nil_iff.mpr
        intro w hw hname
        exact hm ((by simpa using hname : w.fileName = n) ▸ (mem_allFiles hw).1)
      have hself : named n (splitFiles mapName n (content n)) = splitFiles mapName n (content n) :=
        List.filter_eq_self.mpr (fun w hw => by simpa using fileName_of_mem_splitFiles hw)
      rw [hrest,hself,List.append_nil]
    · have hne : m ≠ n := fun h => hm (h ▸ hn)
      have hfirst : named n (splitFiles mapName m (content m)) = [] := by
        apply List.filter_eq_nil_iff.mpr
        intro w hw
        rw [fileName_of_mem_splitFiles hw]
        simpa using hne
      rw [hfirst,ih hnodup hn,List.nil_append]

/-- Names that lead to one file have one content. -/
def Consistent (mapName : Bytes) (names : List Bytes) (content : Bytes → Bytes) : Prop :=
  ∀ m ∈ names, ∀ n ∈ names, fileAt (filePath mapName m) = fileAt (filePath mapName n) → content m = content n

theorem consistent_of_stored {source : Disk}
    (hstored : ∀ n ∈ names, source.files (fileAt (filePath mapName n)) = some (content n)) :
    Consistent mapName names content := by
  intro m hm n hn hplace
  have hsame := hstored m hm
  rw [hplace,hstored n hn] at hsame
  exact (Option.some.inj hsame).symm

theorem transfers_of_perm (hmap : ValidUtf8 mapName) (hutf8 : ∀ n ∈ names, ValidUtf8 n) (hnodup : names.Nodup)
    (hsize : ∀ n ∈ names, (content n).length ≤ maxPacketSize * (2 ^ 31 - 1)) (hsame : Consistent mapName names content)
    {ws : List File}
    (hws : ws.Perm (allFiles mapName names content)) :
    Transfers (fun n => splitInfo mapName n (content n)) ws ∧
      ∀ n ∈ names, Transfer.bytes (splitInfo mapName n (content n)) (named n ws) = content n := by
  have hsplit : ∀ n ∈ names, (splitFiles mapName n (content n)).Perm (named n ws) := by
    intro n hn
    rw [← named_allFiles hnodup hn]
    exact (hws.filter _).symm
  have hbytes : ∀ n ∈ names, Transfer.bytes (splitInfo mapName n (content n)) (named n ws) = content n := by
    intro n hn
    obtain ⟨htransfer,hbytes⟩ := transfer_splitFiles hmap (hutf8 n hn) (hsize n hn)
    exact (htransfer.bytes_perm (hsplit n hn)).trans hbytes
  have hname : ∀ w ∈ ws, w.fileName ∈ names := fun w hw => (mem_allFiles (hws.mem_iff.mp hw)).1
  refine ⟨⟨fun w hw => ?_,fun v hv w hw hplace => ?_⟩,hbytes⟩
  · have hn := hname w hw
    exact (transfer_splitFiles hmap (hutf8 _ hn) (hsize _ hn)).1.perm (hsplit _ hn)
  · rw [hbytes _ (hname v hv),hbytes _ (hname w hw)]
    exact hsame _ (hname v hv) _ (hname w hw) hplace

theorem download_readable (pb : Protobuf) {source : Disk} (hmap : ValidUtf8 mapName)
    (hutf8 : ∀ n ∈ names, ValidUtf8 n)
    (hstored : ∀ n ∈ names, source.files (fileAt (filePath mapName n)) = some (content n)) :
    onReceiveDownloadMapRequest pb source (fun _ => {}) mapName names =
      .ok (names.flatMap fun n => fileFrames pb mapName n (content n)) := by
  have hvalid : ∀ n ∈ names, ValidUtf8 (filePath mapName n) := fun n hn => mapResPath_utf8 hmap (hutf8 n hn)
  have hanswer : ∀ x ∈ names.zipIdx, answer pb source {} mapName x.1 = fileFrames pb mapName x.1 (content x.1) := by
    intro x hx
    simp [answer,readFile,hstored x.1 (List.fst_mem_of_mem_zipIdx hx)]
  rw [onReceiveDownloadMapRequest_eq,if_pos hvalid,List.flatMap_congr hanswer]
  conv => rhs; rw [← List.zipIdx_map_fst 0 names,List.flatMap_map]

end Names

theorem fileFrames_eq (pb : Protobuf) (mapName fileName content : Bytes) : fileFrames pb mapName fileName content =
    (splitFiles mapName fileName content).map fun file =>
      toBigEndianByteStream (pb.serializeToString (fileMessage file)) := by
  rw [fileFrames,messages_eq,List.map_map]
  rfl

/-- The frames of a download of distinct names, in any order, as a server that can parse them gets them. -/
structure Delivery (pb : Protobuf) (mapName : Bytes) (names : List Bytes) (content : Bytes → Bytes)
    (save : ℕ → SaveOps) (ws : List Bytes) : Prop where
  saves : ∀ i, (save i).Works
  mapName_utf8 : ValidUtf8 mapName
  names_utf8 : ∀ n ∈ names, ValidUtf8 n
  nodup : names.Nodup
  size : ∀ n ∈ names, (content n).length ≤ maxPacketSize * (2 ^ 31 - 1)
  same : Consistent mapName names content
  inverts : ∀ n ∈ names, ∀ m ∈ (requested mapName n).messages (chunksOf (content n)), pb.Inverts m
  perm : ws.Perm (names.flatMap fun n => fileFrames pb mapName n (content n))

namespace Delivery
variable {pb : Protobuf} {mapName : Bytes} {names : List Bytes} {content : Bytes → Bytes} {save : ℕ → SaveOps}
  {ws : List Bytes} (h : Delivery pb mapName names content save ws)
include h

theorem inverts_splitFiles {n : Bytes} (hn : n ∈ names) {file : File} (hfile : file ∈ splitFiles mapName n (content n)) :
    pb.Inverts (fileMessage file) := by
  apply h.inverts n hn
  rw [messages_eq]
  exact List.mem_map_of_mem hfile

theorem decode {n : Bytes} (hn : n ∈ names) {buf : Bytes} (hbuf : buf ∈ fileFrames pb mapName n (content n)) :
    CarriesFile pb buf ∧ fileOf pb buf ∈ splitFiles mapName n (content n) := by
  rw [fileFrames_eq] at hbuf
  obtain ⟨file,hfile,rfl⟩ := List.mem_map.mp hbuf
  obtain ⟨hcarries,hof⟩ := frame_carriesFile (h.inverts_splitFiles hn hfile)
  exact ⟨hcarries,hof.symm ▸ hfile⟩

theorem owner {buf : Bytes} (hbuf : buf ∈ ws) : ∃ n ∈ names, buf ∈ fileFrames pb mapName n (content n) :=
  List.mem_flatMap.mp (h.perm.mem_iff.mp hbuf)

theorem carriesFile {buf : Bytes} (hbuf : buf ∈ ws) : CarriesFile pb buf := by
  obtain ⟨n,hn,hmem⟩ := h.owner hbuf
  exact (h.decode hn hmem).1

/-- A frame belongs to the file that its packet names. -/
theorem fileName_iff {n : Bytes} (hn : n ∈ names) {buf : Bytes} (hbuf : buf ∈ ws) :
    (fileOf pb buf).fileName = n ↔ buf ∈ fileFrames pb mapName n (content n) := by
  constructor
  · intro hname
    obtain ⟨m,hm,hmem⟩ := h.owner hbuf
    obtain rfl := (fileName_of_mem_splitFiles (h.decode hm hmem).2).symm.trans hname
    exact hmem
  · intro hmem
    exact fileName_of_mem_splitFiles (h.decode hn hmem).2

theorem perm_allFiles : (ws.map (fileOf pb)).Perm (allFiles mapName names content) := by
  have hall : names.flatMap (fun n => fileFrames pb mapName n (content n)) = (allFiles mapName names content).map
      fun file => toBigEndianByteStream (pb.serializeToString (fileMessage file)) := by
    simp only [fileFrames_eq,allFiles,List.map_flatMap]
  refine (h.perm.map (fileOf pb)).trans (.of_eq ?_)
  rw [hall,List.map_map]
  refine (List.map_congr_left fun file hfile => ?_).trans (List.map_id _)
  obtain ⟨hn,hmem⟩ := mem_allFiles hfile
  exact (frame_carriesFile (h.inverts_splitFiles hn hmem)).2

theorem transfers : Transfers (fun n => splitInfo mapName n (content n)) (ws.map (fileOf pb)) :=
  (transfers_of_perm h.mapName_utf8 h.names_utf8 h.nodup h.size h.same h.perm_allFiles).1

theorem bytes_eq {n : Bytes} (hn : n ∈ names) :
    Transfer.bytes (splitInfo mapName n (content n)) (named n (ws.map (fileOf pb))) = content n :=
  (transfers_of_perm h.mapName_utf8 h.names_utf8 h.nodup h.size h.same h.perm_allFiles).2 n hn

/-- Every file, an empty one included, has a frame. -/
theorem exists_frame {n : Bytes} (hn : n ∈ names) : ∃ buf ∈ ws, buf ∈ fileFrames pb mapName n (content n) := by
  obtain ⟨buf,hbuf⟩ := List.exists_mem_of_ne_nil _ (fileFrames_ne_nil pb mapName n (content n))
  exact ⟨buf,h.perm.mem_iff.mpr (List.mem_flatMap.mpr ⟨n,hn,hbuf⟩),hbuf⟩

theorem deliver_eq (target : Disk) : deliver pb (.fresh target) save ws =
    (Server.fresh target).run ((ws.map (fileOf pb)).map succeeding) :=
  deliver_eq_run (fun _ hbuf => h.carriesFile hbuf) h.saves _

theorem filesReceiver_eq (target : Disk) : (deliver pb (.fresh target) save ws).filesReceiver = ∅ := by
  rw [h.deliver_eq]
  exact h.transfers.filesReceiver_eq target

theorem files_eq (target : Disk) {n : Bytes} (hn : n ∈ names) :
    (deliver pb (.fresh target) save ws).disk.files (fileAt (filePath mapName n)) = some (content n) := by
  obtain ⟨buf,hmem,hbuf⟩ := h.exists_frame hn
  have hkey := (h.fileName_iff hn hmem).mpr hbuf
  have hfiles := h.transfers.files_eq target (List.mem_map_of_mem hmem)
  rw [hkey,h.bytes_eq hn] at hfiles
  rw [h.deliver_eq]
  exact hfiles

/-- No other file is touched. -/
theorem files_other (target : Disk) {p : Place} (hp : ∀ n ∈ names, fileAt (filePath mapName n) ≠ p) :
    (deliver pb (.fresh target) save ws).disk.files p = target.files p := by
  rw [h.deliver_eq]
  refine (h.transfers.files_eq_or target p).resolve_right ?_
  rintro ⟨w,hw,hplace⟩
  obtain ⟨buf,hbuf,rfl⟩ := List.mem_map.mp hw
  obtain ⟨n,hn,hmem⟩ := h.owner hbuf
  rw [fileName_of_mem_splitFiles (h.decode hn hmem).2] at hplace
  exact hp n hn hplace

/-- `receive` returns true for the last outstanding frame of a file and false for the others. -/
theorem returned_eq (target : Disk) {n : Bytes} (hn : n ∈ names) {pre post : List Bytes} {buf : Bytes}
    (hws : ws = pre ++ buf :: post) (hbuf : buf ∈ fileFrames pb mapName n (content n)) :
    (receiptFor pb (deliver pb (.fresh target) save pre) (save pre.length) buf).bind Receipt.returned =
      some (decide (∀ x ∈ post, x ∉ fileFrames pb mapName n (content n))) := by
  have hmem : buf ∈ ws := by simp [hws]
  have hpre : ∀ x ∈ pre, CarriesFile pb x := fun x hx => h.carriesFile (by simp [hws,hx])
  have hkey := (h.fileName_iff hn hmem).mpr hbuf
  have hsplit : ws.map (fileOf pb) = pre.map (fileOf pb) ++ fileOf pb buf :: post.map (fileOf pb) := by simp [hws]
  have hlast : named n (post.map (fileOf pb)) = [] ↔ ∀ x ∈ post, x ∉ fileFrames pb mapName n (content n) := by
    simp only [named,List.filter_eq_nil_iff,List.mem_map,forall_exists_index,and_imp,decide_eq_true_eq,
      forall_apply_eq_imp_iff₂]
    exact forall₂_congr fun x hx => not_congr (h.fileName_iff hn (by simp [hws,hx]))
  have hout := h.transfers.outcome target hsplit
  have hreceipt : receiptFor pb (deliver pb (.fresh target) save pre) (save pre.length) buf =
      some (((Server.fresh target).run ((pre.map (fileOf pb)).map succeeding)).upload (succeeding (fileOf pb buf))).2 := by
    rw [receiptFor,tcpOnMessage_file (h.carriesFile hmem),deliver_eq_run hpre h.saves,(h.saves pre.length).eq]
    rfl
  rw [hreceipt,hout,hkey]
  by_cases hpost : named n (post.map (fileOf pb)) = []
  · rw [if_pos hpost,decide_eq_true (hlast.mp hpost)]
    rfl
  · rw [if_neg hpost,decide_eq_false (fun hnone => hpost (hlast.mpr hnone))]
    rfl

end Delivery

/-- With the generated code every order of the downloaded frames is a delivery. -/
theorem delivery_packetCodec {mapName : Bytes} {names : List Bytes} {content : Bytes → Bytes} {save : ℕ → SaveOps}
    {ws : List Bytes} (hsave : ∀ i, (save i).Works) (hmap : ValidUtf8 mapName) (hutf8 : ∀ n ∈ names, ValidUtf8 n)
    (hnodup : names.Nodup)
    (hsize : ∀ n ∈ names, (content n).length ≤ maxPacketSize * (2 ^ 31 - 1))
    (hsame : Consistent mapName names content) (hlen : ∀ n ∈ names, mapName.length + n.length ≤ 2 ^ 31 - 1300)
    (hws : ws.Perm (names.flatMap fun n => fileFrames packetCodec mapName n (content n))) :
    Delivery packetCodec mapName names content save ws := by
  refine ⟨hsave,hmap,hutf8,hnodup,hsize,hsame,fun n hn m hm => ?_,hws⟩
  rw [messages_eq] at hm
  obtain ⟨w,hw,rfl⟩ := List.mem_map.mp hm
  exact packetCodec_inverts_splitFiles hmap (hutf8 n hn) (hlen n hn) hw

/-- Downloaded frames, uploaded in any order to a server with nothing pending, restore every file; each
file is saved with its last outstanding frame. -/
theorem download_upload (pb : Protobuf) (mapName : Bytes) (names : List Bytes) (content : Bytes → Bytes)
    (source target : Disk) (hmap : ValidUtf8 mapName) (hutf8 : ∀ n ∈ names, ValidUtf8 n) (hnodup : names.Nodup)
    (hsize : ∀ n ∈ names, (content n).length ≤ 1200 * (2 ^ 31 - 1))
    (hstored : ∀ n ∈ names, source.files (fileAt (filePath mapName n)) = some (content n))
    (hpb : ∀ n ∈ names, ∀ m ∈ (requested mapName n).messages (chunksOf (content n)), pb.Inverts m) :
    ∃ frames, onReceiveDownloadMapRequest pb source (fun _ => {}) mapName names = .ok frames ∧
      ∀ ws, ws.Perm frames → ∀ save : ℕ → SaveOps, (∀ i, (save i).Works) →
        (deliver pb (.fresh target) save ws).filesReceiver = ∅ ∧
        (∀ n ∈ names, (deliver pb (.fresh target) save ws).disk.files (fileAt (filePath mapName n)) = some (content n)) ∧
        (∀ n ∈ names, ∃ buf ∈ ws, buf ∈ fileFrames pb mapName n (content n)) ∧
        ∀ n ∈ names, ∀ pre buf post, ws = pre ++ buf :: post → buf ∈ fileFrames pb mapName n (content n) →
          (receiptFor pb (deliver pb (.fresh target) save pre) (save pre.length) buf).bind Receipt.returned =
            some (decide (∀ x ∈ post, x ∉ fileFrames pb mapName n (content n))) := by
  refine ⟨_,download_readable pb hmap hutf8 hstored,fun ws hws save hsave => ?_⟩
  have h : Delivery pb mapName names content save ws :=
    ⟨hsave,hmap,hutf8,hnodup,hsize,consistent_of_stored hstored,hpb,hws⟩
  exact ⟨h.filesReceiver_eq target,fun n hn => h.files_eq target hn,fun n hn => h.exists_frame hn,
    fun n hn pre buf post hsplit hbuf => h.returned_eq target hn hsplit hbuf⟩

def twoContents (n : Bytes) : Bytes := if n = utf8 "b" then [1,2,3] else []

def twoFiles : Disk where
  dirs _ := true
  files p := if p = fileAt (filePath (utf8 "m") (utf8 "a")) then some []
    else if p = fileAt (filePath (utf8 "m") (utf8 "b")) then some [1,2,3] else none

theorem download_upload_twoFiles :
    ∃ frames, onReceiveDownloadMapRequest packetCodec twoFiles (fun _ => {}) (utf8 "m") [utf8 "a",utf8 "b"] =
        .ok frames ∧
      ∀ ws, ws.Perm frames → ∀ save : ℕ → SaveOps, (∀ i, (save i).Works) →
        (deliver packetCodec (.fresh .blank) save ws).filesReceiver = ∅ ∧
        (∀ n ∈ [utf8 "a",utf8 "b"], (deliver packetCodec (.fresh .blank) save ws).disk.files
          (fileAt (filePath (utf8 "m") n)) = some (twoContents n)) ∧
        (∀ n ∈ [utf8 "a",utf8 "b"], ∃ buf ∈ ws, buf ∈ fileFrames packetCodec (utf8 "m") n (twoContents n)) ∧
        ∀ n ∈ [utf8 "a",utf8 "b"], ∀ pre buf post, ws = pre ++ buf :: post →
          buf ∈ fileFrames packetCodec (utf8 "m") n (twoContents n) →
          (receiptFor packetCodec (deliver packetCodec (.fresh .blank) save pre) (save pre.length) buf).bind
            Receipt.returned = some (decide (∀ x ∈ post, x ∉ fileFrames packetCodec (utf8 "m") n (twoContents n))) :=
  download_upload packetCodec (utf8 "m") [utf8 "a",utf8 "b"] twoContents twoFiles .blank (by decide +kernel)
    (by decide +kernel) (by decide +kernel) (by decide +kernel) (by decide +kernel) (by decide +kernel)

end FDemo.MapServer
