import FDemo.MapServer.Handler
import FDemo.Protobuf.Codec

/-! # A payload that does not parse

The message object keeps what was read before the failing byte, and the handlers
dispatch on it. They have no effect exactly on messages that are inert in the
present state: no list of maps is asked for, nothing requested can be read, and
an upload packet only repeats what its entry holds without completing it.
-/
namespace FDemo.MapServer
open Packet Mealy

/-- No effect of a call of the TCP handler: nothing sent, no entry changed, no file written, and no
item read out of range. -/
structure NoEffect (s : Server) (r : Handled) : Prop where
  sent : r.sent = []
  filesReceiver : r.server.filesReceiver = s.filesReceiver
  written : r.receipt.bind Receipt.save = none
  defined : r.exception ≠ some .outOfRange

/-- The entry has its file info, and the packet with this content. -/
structure HxFile.Holds (f : HxFile) (file : File) : Prop where
  info : f.fileName = [] → file.fileName = [] ∧ file.mapName = f.mapName ∧
    file.filePacketTotal = f.filePacketTotal ∧ file.wholeFileMd5 = f.fileWholeMd5
  packet : f.filePackets.lookup file.filePacketNum = some file.fileContent

/-- A packet that its entry already holds, without being saved. -/
def Repeated (s : Server) (save : SaveOps) (file : File) : Prop :=
  ∃ f, s.filesReceiver.lookup file.fileName = some f ∧ f.Holds file ∧
    (f.Full → ValidUtf8 f.fullPath → save.openWrite = false)

/-- A request of which no file can be read, or one of whose paths is not UTF-8. -/
def Unanswered (d : Disk) (read : ℕ → ReadOps) (fileList : Itemlist) : Prop :=
  ∃ mapName items, fileList.items = mapName :: items ∧
    ((∀ n ∈ items.map cString, ValidUtf8 (filePath mapName n)) →
      ∀ x ∈ (items.map cString).zipIdx, readFile d (read x.2) (filePath mapName x.1) = none)

def InertPayload (s : Server) (read : ℕ → ReadOps) (save : SaveOps) : Payload → Prop
  | .itemlist fileList => Unanswered s.disk read fileList
  | .file file => Repeated s save file
  | _ => True

/-- A message that the TCP handler ignores in this state. -/
structure Inert (s : Server) (read : ℕ → ReadOps) (save : SaveOps) (m : Message) : Prop where
  notMaplist : m.type ≠ .maplist
  payload : m.type = .file → InertPayload s read save m.payload

section Upload

theorem storedEntry_eq_self_iff {f : HxFile} {file : File} : storedEntry (some f) file = f ↔ f.Holds file := by
  constructor
  · intro h
    refine ⟨fun hname => ?_,?_⟩
    · have hset : storedEntry (some f) file = HxFile.stored { f with
          mapName := file.mapName
          fileName := file.fileName
          filePacketTotal := file.filePacketTotal
          fileWholeMd5 := file.wholeFileMd5 } file.filePacketNum file.fileContent := by
        rw [storedEntry,Option.getD_some,HxFile.setFileInfo_of_eq hname]
      rw [hset] at h
      exact ⟨(congrArg HxFile.fileName h).trans hname,congrArg HxFile.mapName h,congrArg HxFile.filePacketTotal h,
        congrArg HxFile.fileWholeMd5 h⟩
    · have hpackets := congrArg (fun g => g.filePackets.lookup file.filePacketNum) h
      simpa [storedEntry] using hpackets.symm
  · rintro ⟨hinfo,hpacket⟩
    have hset : f.setFileInfo file.mapName file.fileName file.filePacketTotal file.wholeFileMd5 = f := by
      by_cases hname : f.fileName = []
      · obtain ⟨hfile,hmap,htotal,hmd5⟩ := hinfo hname
        rw [HxFile.setFileInfo_of_eq hname,hfile,hmap,htotal,hmd5,← hname]
      · exact HxFile.setFileInfo_of_ne hname _ _ _ _
    have hinsert : f.filePackets.insert file.filePacketNum file.fileContent = f.filePackets := by
      refine Finmap.ext_lookup fun k => ?_
      by_cases hk : k = file.filePacketNum
      · rw [hk,Finmap.lookup_insert,hpacket]
      · rw [Finmap.lookup_insert_of_ne _ hk]
    rw [storedEntry,Option.getD_some,hset,HxFile.stored,hinsert]

theorem save_eq_none_iff {f : HxFile} {ops : SaveOps} :
    (f.outcome ops).save = none ↔ (f.Full → ValidUtf8 f.fullPath → ops.openWrite = false) := by
  unfold HxFile.outcome
  by_cases hfull : f.Full
  · by_cases hvalid : ValidUtf8 f.fullPath
    · cases hopen : ops.openWrite <;> simp [hfull,hvalid,Receipt.save]
    · simp [hfull,hvalid,Receipt.save]
  · simp [hfull,Receipt.save]

theorem done_eq_false_of_save {r : Receipt} (h : r.save = none) : r.done = false := by
  cases r <;> simp_all [Receipt.save,Receipt.done]

/-- An upload packet that is not saved leaves the map alone exactly when its entry holds it. -/
theorem upload_filesReceiver_iff {s : Server} {e : Upload} (h : (s.upload e).2.save = none) :
    (s.upload e).1.filesReceiver = s.filesReceiver ↔
      ∃ f, s.filesReceiver.lookup e.1.fileName = some f ∧ f.Holds e.1 := by
  have hstep : (entryStep (s.filesReceiver.lookup (uploadKey e)) e).1 = some (s.storing e) := by
    refine entryStep_of_not_done (done_eq_false_of_save ?_)
    rw [upload_eq] at h
    exact h
  rw [upload_eq,hstep,setEntry_eq_self_iff]
  constructor
  · intro hlookup
    refine ⟨_,hlookup,storedEntry_eq_self_iff.mp ?_⟩
    exact (congrArg (storedEntry · e.1) hlookup).symm
  · rintro ⟨f,hf,hholds⟩
    have hstoring : s.storing e = f := by
      rw [Server.storing,uploadKey,hf]
      exact storedEntry_eq_self_iff.mpr hholds
    exact hf.trans (congrArg some hstoring.symm)

theorem onFile_noEffect_iff {s : Server} {save : SaveOps} {file : File} :
    NoEffect s (onFile s save file) ↔ Repeated s save file := by
  have hout := upload_outcome s (file,save)
  have hstoring : ∀ f, s.filesReceiver.lookup file.fileName = some f → f.Holds file → s.storing (file,save) = f := by
    intro f hf hholds
    rw [Server.storing,uploadKey,hf]
    exact storedEntry_eq_self_iff.mpr hholds
  constructor
  · rintro ⟨-,hmap,hwritten,-⟩
    have hsave : (s.upload (file,save)).2.save = none := by simpa [onFile] using hwritten
    obtain ⟨f,hf,hholds⟩ := (upload_filesReceiver_iff hsave).mp hmap
    rw [hout,hstoring f hf hholds,save_eq_none_iff] at hsave
    exact ⟨f,hf,hholds,hsave⟩
  · rintro ⟨f,hf,hholds,hsave⟩
    have hnone : (s.upload (file,save)).2.save = none := by
      rw [hout,hstoring f hf hholds]
      exact save_eq_none_iff.mpr hsave
    refine ⟨rfl,(upload_filesReceiver_iff hnone).mpr ⟨f,hf,hholds⟩,by simpa [onFile] using hnone,?_⟩
    simp only [onFile]
    split <;> simp

end Upload

theorem onItemlist_noEffect_iff {pb : Protobuf} {s : Server} {read : ℕ → ReadOps} {fileList : Itemlist} :
    NoEffect s (onItemlist pb s read fileList) ↔ Unanswered s.disk read fileList := by
  obtain ⟨items⟩ := fileList
  cases items with
  | nil =>
    refine iff_of_false (fun h => h.defined rfl) ?_
    rintro ⟨mapName,items,hitems,-⟩
    simp at hitems
  | cons mapName items =>
    have hunanswered : Unanswered s.disk read { items := mapName :: items } ↔
        ((∀ n ∈ items.map cString, ValidUtf8 (filePath mapName n)) →
          ∀ x ∈ (items.map cString).zipIdx, readFile s.disk (read x.2) (filePath mapName x.1) = none) := by
      constructor
      · rintro ⟨mapName',items',hitems,h⟩
        obtain ⟨rfl,rfl⟩ := List.cons.inj hitems
        exact h
      · exact fun h => ⟨mapName,items,rfl,h⟩
    rw [hunanswered]
    simp only [onItemlist,onReceiveDownloadMapRequest_eq]
    by_cases hvalid : ∀ n ∈ items.map cString, ValidUtf8 (filePath mapName n)
    · rw [if_pos hvalid]
      constructor
      · intro h _ x hx
        exact answer_eq_nil.mp (List.flatMap_eq_nil_iff.mp h.sent x hx)
      · intro h
        refine ⟨List.flatMap_eq_nil_iff.mpr fun x hx => ?_,rfl,rfl,by simp⟩
        exact answer_eq_nil.mpr (h hvalid x hx)
    · rw [if_neg hvalid]
      exact iff_of_true ⟨rfl,rfl,rfl,by simp⟩ (fun h => absurd h hvalid)

theorem dispatch_noEffect_iff {pb : Protobuf} {s : Server} {read : ℕ → ReadOps} {save : SaveOps} {m : Message} :
    NoEffect s (dispatch pb s read save m) ↔ Inert s read save m := by
  have hnothing : NoEffect s { server := s } := ⟨rfl,rfl,rfl,by simp⟩
  unfold dispatch
  by_cases hmaplist : m.type = .maplist
  · rw [if_pos hmaplist]
    exact iff_of_false (fun h => by simpa using h.sent) (fun h => h.notMaplist hmaplist)
  · rw [if_neg hmaplist]
    by_cases hfile : m.type = .file
    · rw [if_pos hfile]
      have hinert : Inert s read save m ↔ InertPayload s read save m.payload :=
        ⟨fun h => h.payload hfile,fun h => ⟨hmaplist,fun _ => h⟩⟩
      rw [hinert]
      cases m.payload with
      | itemlist fileList => exact onItemlist_noEffect_iff
      | file file => exact onFile_noEffect_iff
      | notSet => exact iff_of_true hnothing trivial
      | heartbeat _ => exact iff_of_true hnothing trivial
      | location _ => exact iff_of_true hnothing trivial
      | fileTransferStatus _ => exact iff_of_true hnothing trivial
    · rw [if_neg hfile]
      exact iff_of_true hnothing ⟨hmaplist,fun h => absurd h hfile⟩

/-- A payload that does not parse has no effect exactly when the message it leaves behind is inert; the
UDP handler answers it exactly when that message is a heartbeat. -/
theorem undecodable_no_effect_iff (pb : Protobuf) {payload : Bytes} {m : Message}
    (hparse : pb.parseFromString payload = (m,false)) {header : Bytes} (hheader : header.length = headBodyLength)
    (s : Server) (read : ℕ → ReadOps) (save : SaveOps) :
    (NoEffect s (tcpOnMessage pb s read save (header ++ payload)) ↔ Inert s read save m) ∧
      ((udpOnMessage pb payload).2 = [] ↔ m.type ≠ .heartbeat) := by
  constructor
  · have hlen : ¬ (header ++ payload).length < headBodyLength := by
      rw [List.length_append]
      omega
    have hstrip : stripHeader (header ++ payload) = payload := by
      rw [stripHeader,List.drop_left' hheader]
    rw [tcpOnMessage,if_neg hlen,hstrip,hparse]
    exact dispatch_noEffect_iff
  · simp [udpOnMessage,hparse]

theorem undecodable_no_effect_iff_badTag :
    (NoEffect { disk := .blank } (tcpOnMessage packetCodec { disk := .blank } (fun _ => {}) {}
        ([0,0,0,0,0,0,0,1] ++ [0x0F])) ↔ Inert { disk := .blank } (fun _ => {}) {} {}) ∧
      ((udpOnMessage packetCodec [0x0F]).2 = [] ↔ ({} : Message).type ≠ .heartbeat) :=
  undecodable_no_effect_iff packetCodec (by decide +kernel) (by decide) _ _ _

/-- A file message that breaks off before its packet numbers replaces the file by an empty one. -/
theorem broken_upload_overwrites : ¬ ∀ (s : Server) (read : ℕ → ReadOps) (save : SaveOps) (payload : Bytes),
    (packetCodec.parseFromString payload).2 = false →
      NoEffect s (tcpOnMessage packetCodec s read save (toBigEndianByteStream payload)) ∧
        (udpOnMessage packetCodec payload).2 = [] := by
  intro h
  have hparse : (packetCodec.parseFromString [0x08,4,0x2A,6,0x0A,1,0x6D,0x12,1,0x66,0x0F]).2 = false := by
    decide +kernel
  have hwritten := (h { disk := .blank } (fun _ => {}) {} _ hparse).1.written
  exact absurd hwritten (by decide +kernel)

end FDemo.MapServer
