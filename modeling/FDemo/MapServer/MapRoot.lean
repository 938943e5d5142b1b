import FDemo.MapServer.Handler
import FDemo.MapServer.History
import FDemo.Protobuf.Codec

/-! # Where the requests lead

Uploads and downloads name files under the map root, and none of the three
places that build a path looks into the names. What a handled message asks the
operating system for is a list of accesses: the directory of a map (with its
missing parents), the file of a completed upload, and the files of a download
request up to the first whose path is not UTF-8. Nothing else on the disk
changes, and no other file is answered.
-/
namespace FDemo.MapServer
open Packet Mealy DirectoryTree

def rootDirs : List Bytes := (resolve mapResPath).tail

def InsideRoot (path : Bytes) : Prop := resolve mapResPath <+: resolve path

instance instDecidableInsideRoot (path : Bytes) : Decidable (InsideRoot path) :=
  inferInstanceAs (Decidable (_ <+: _))

/-- What the handler asks the operating system for. -/
inductive Access where
  | createDirectory (path : Bytes)
  | openWrite (path : Bytes)
  | openRead (path : Bytes)
  deriving DecidableEq

/-- The path that is looked up: a stream opens the C string of its path. -/
def Access.path : Access → Bytes
  | createDirectory path => path
  | openWrite path => cString path
  | openRead path => cString path

namespace HxFile

def saveAccesses (f : HxFile) (d : Disk) : List Access :=
  (if d.dirs (resolve f.dirPath) then [] else [.createDirectory f.dirPath]) ++
  if ValidUtf8 f.fullPath then [.openWrite f.fullPath] else []

def receiveAccesses (f : HxFile) (packetNum : Int32) (content : Bytes) (d : Disk) : List Access :=
  let f := { f with filePackets := f.filePackets.insert packetNum content }
  if f.filePackets.keys.card < sizeOfInt f.filePacketTotal then [] else f.saveAccesses d

end HxFile

def Server.uploadAccesses (s : Server) (file : File) : List Access :=
  ((s.setFileInfo file).entry file.fileName).receiveAccesses file.filePacketNum file.fileContent s.disk

/-- The first path that is not UTF-8 ends the request. -/
def downloadAccesses (mapName : Bytes) (fileList : List Bytes) : List Access :=
  ((fileList.map (filePath mapName)).takeWhile fun path => decide (ValidUtf8 path)).map .openRead

/-- The accesses of `dispatch`, branch by branch. -/
def dispatchAccesses (s : Server) (msgReceive : Message) : List Access :=
  if msgReceive.type = .maplist then []
  else if msgReceive.type = .file then
    match msgReceive.payload with
    | .itemlist { items := mapName :: items } => downloadAccesses mapName (items.map cString)
    | .file file => s.uploadAccesses file
    | _ => []
  else []

def serve (pb : Protobuf) (s : Server) (r : Request) : Server × List Access :=
  ((dispatch pb s r.read r.save r.message).server,dispatchAccesses s r.message)

/-- Everything that a sequence of messages makes the server ask for. -/
def accesses (pb : Protobuf) (s : Server) (rs : List Request) : List Access :=
  (trace (serve pb) s rs).flatMap Prod.snd

/-- The accesses that the names of a message spell out. -/
def spelled (m : Message) : List Access :=
  match m.payload with
  | .file file => [.createDirectory (mapResPath ++ file.mapName),.openWrite (filePath file.mapName file.fileName)]
  | .itemlist { items := mapName :: items } => items.map fun name => .openRead (filePath mapName (cString name))
  | _ => []

section Resolve

theorem mapResPath_concat : mapResPath = mapResPath.dropLast ++ [0x2F] := by decide +kernel

theorem components_mapResPath (names : Bytes) :
    components (mapResPath ++ names) = components mapResPath.dropLast ++ components names := by
  have hsplit : mapResPath ++ names = mapResPath.dropLast ++ 0x2F :: names := by
    conv => lhs; rw [mapResPath_concat]
    rw [List.append_assoc]
    rfl
  rw [hsplit]
  exact List.splitOnP_append_cons _ _ rfl

/-- Names under the root are walked from the root. -/
theorem resolve_mapResPath (names : Bytes) : ∃ drive, resolve mapResPath = drive :: rootDirs ∧
    resolve (mapResPath ++ names) = drive :: walk rootDirs (segments names) := by
  cases hroot : components mapResPath.dropLast with
  | nil => exact absurd hroot (List.splitOnP_ne_nil _ _)
  | cons drive rest =>
    have hresolve : ∀ names, resolve (mapResPath ++ names) =
        drive :: walk (walk [] (rest.filterMap segment)) (segments names) := by
      intro names
      rw [resolve,components_mapResPath,hroot,List.cons_append]
      simp only [List.filterMap_append,walk_append,segments]
    have hself : resolve mapResPath = drive :: walk [] (rest.filterMap segment) := by
      have hnil : segments [] = [] := rfl
      simpa [hnil,walk] using hresolve []
    refine ⟨drive,?_,?_⟩
    · rw [rootDirs,hself,List.tail_cons]
    · rw [hresolve,rootDirs,hself,List.tail_cons]

/-- Names lead out of the root exactly when they do not come back to the directories they leave. -/
theorem insideRoot_iff {names : Bytes} :
    InsideRoot (mapResPath ++ names) ↔ (descent (segments names)).Returns rootDirs := by
  obtain ⟨drive,hroot,hnames⟩ := resolve_mapResPath names
  rw [InsideRoot,hroot,hnames,List.cons_prefix_cons,← prefix_walk_iff]
  exact and_iff_right rfl

theorem insideRoot_of_no_up {names : Bytes} (h : utf8 ".." ∉ components names) : InsideRoot (mapResPath ++ names) := by
  refine insideRoot_iff.mpr (returns_of_downs fun hup => ?_)
  obtain ⟨c,hc,hseg⟩ := List.mem_filterMap.mp hup
  refine h (?_ : utf8 ".." ∈ components names)
  unfold segment at hseg
  split at hseg
  · simp at hseg
  · split at hseg
    · rename_i heq
      exact heq ▸ hc
    · simp at hseg

end Resolve

section Footprint
variable (pb : Protobuf) (s : Server) (read : ℕ → ReadOps) (save : SaveOps) (m : Message)

/-- A handled message is an upload packet, a download request with a map name, or touches nothing. -/
theorem dispatch_cases :
    (∃ file, m.payload = .file file ∧ (∀ s', dispatch pb s' read save m = onFile s' save file) ∧
      dispatchAccesses s m = s.uploadAccesses file) ∨
    (∃ mapName items, m.payload = .itemlist ⟨mapName :: items⟩ ∧
      (∀ s', dispatch pb s' read save m = onItemlist pb s' read ⟨mapName :: items⟩) ∧
      dispatchAccesses s m = downloadAccesses mapName (items.map cString)) ∨
    ((dispatch pb s read save m).server = s ∧ dispatchAccesses s m = [] ∧
      ∀ s', (dispatch pb s' read save m).sent = (dispatch pb s read save m).sent) := by
  obtain ⟨type,payload⟩ := m
  have hkind : ¬ MessageType.file = MessageType.maplist := by decide
  by_cases hmaplist : type = .maplist
  · subst hmaplist
    exact Or.inr (Or.inr ⟨rfl,rfl,fun _ => rfl⟩)
  · by_cases hfile : type = .file
    · subst hfile
      cases payload with
      | file file => exact Or.inl ⟨file,rfl,fun _ => rfl,rfl⟩
      | itemlist l =>
        obtain ⟨items⟩ := l
        cases items with
        | nil => exact Or.inr (Or.inr ⟨rfl,rfl,fun _ => rfl⟩)
        | cons mapName items => exact Or.inr (Or.inl ⟨mapName,items,rfl,fun _ => rfl,rfl⟩)
      | notSet => exact Or.inr (Or.inr ⟨rfl,rfl,fun _ => rfl⟩)
      | heartbeat => exact Or.inr (Or.inr ⟨rfl,rfl,fun _ => rfl⟩)
      | location => exact Or.inr (Or.inr ⟨rfl,rfl,fun _ => rfl⟩)
      | fileTransferStatus => exact Or.inr (Or.inr ⟨rfl,rfl,fun _ => rfl⟩)
    · exact Or.inr (Or.inr (by simp [dispatch,dispatchAccesses,hmaplist,hfile]))

theorem onItemlist_server (fileList : Itemlist) : (onItemlist pb s read fileList).server = s := by
  unfold onItemlist
  split
  · rfl
  · split <;> rfl

theorem uploadAccesses_eq (file : File) : s.uploadAccesses file =
    if (s.storing (file,save)).Full then (s.storing (file,save)).saveAccesses s.disk else [] := by
  have hstored : ((s.setFileInfo file).entry file.fileName).stored file.filePacketNum file.fileContent =
      s.storing (file,save) := by
    rw [entry_setFileInfo s (file,save)]
    rfl
  have hreceive : ∀ f : HxFile, f.receiveAccesses file.filePacketNum file.fileContent s.disk =
      if (f.stored file.filePacketNum file.fileContent).Full then
        (f.stored file.filePacketNum file.fileContent).saveAccesses s.disk else [] := by
    intro f
    by_cases hfull : (f.stored file.filePacketNum file.fileContent).Full
    · rw [if_pos hfull]
      exact if_neg (Nat.not_lt.mpr hfull)
    · rw [if_neg hfull]
      exact if_pos (Nat.not_le.mp hfull)
  rw [Server.uploadAccesses,hreceive,hstored]

/-- What a message does to the disk, and what it answers from there, goes through its accesses. -/
structure Footprint : Prop where
  files : ∀ p, (dispatch pb s read save m).server.disk.files p ≠ s.disk.files p →
    ∃ path, fileAt path = p ∧ .openWrite path ∈ dispatchAccesses s m
  dirs : ∀ p, (dispatch pb s read save m).server.disk.dirs p ≠ s.disk.dirs p →
    ∃ path, resolve path = p ∧ .createDirectory path ∈ dispatchAccesses s m
  sent : ∀ d : Disk, (∀ path, .openRead path ∈ dispatchAccesses s m → d.files (fileAt path) = s.disk.files (fileAt path)) →
    (dispatch pb { s with disk := d } read save m).sent = (dispatch pb s read save m).sent

variable {s save} in
theorem openWrite_of_files_ne {file : File} {p : Place}
    (h : (s.upload (file,save)).1.disk.files p ≠ s.disk.files p) :
    ∃ path, fileAt path = p ∧ .openWrite path ∈ s.uploadAccesses file := by
  rw [upload_files,upload_outcome] at h
  have hdone : ((s.storing (file,save)).outcome save).done = true := by
    cases hout : (s.storing (file,save)).outcome save with
    | saved path bytes => rfl
    | _ =>
      rw [hout] at h
      exact absurd rfl h
  obtain ⟨hfull,hvalid,-,hout⟩ := HxFile.outcome_done hdone
  have hp : p = fileAt (s.storing (file,save)).fullPath := by
    by_contra hne
    rw [hout] at h
    exact h (Function.update_of_ne hne _ _)
  refine ⟨_,hp.symm,?_⟩
  rw [uploadAccesses_eq s save,if_pos hfull,HxFile.saveAccesses,if_pos hvalid]
  exact List.mem_append_right _ (List.mem_singleton.mpr rfl)

variable {s save} in
theorem createDirectory_of_dirs_ne {file : File} {p : Place}
    (h : (s.upload (file,save)).1.disk.dirs p ≠ s.disk.dirs p) :
    ∃ path, resolve path = p ∧ .createDirectory path ∈ s.uploadAccesses file := by
  have hdisk : (s.upload (file,save)).1.disk = (s.storing (file,save)).settledDisk save s.disk := by
    rw [upload_eq]
    rfl
  rw [hdisk] at h
  have hfull : (s.storing (file,save)).Full := by
    by_contra hfull
    rw [HxFile.settledDisk,HxFile.outcome_waiting_iff.mpr hfull] at h
    exact h rfl
  have hensure : ((s.storing (file,save)).ensureDirectoryExists save s.disk).dirs p ≠ s.disk.dirs p := by
    unfold HxFile.settledDisk at h
    split at h
    · exact absurd rfl h
    · exact h
    · exact h
    · exact h
  unfold HxFile.ensureDirectoryExists at hensure
  split at hensure
  · exact absurd rfl hensure
  · rename_i hmissing
    have hp : p = resolve (s.storing (file,save)).dirPath := by
      by_contra hne
      split at hensure
      · exact hensure (Function.update_of_ne hne _ _)
      · exact hensure rfl
    refine ⟨_,hp.symm,?_⟩
    rw [uploadAccesses_eq s save,if_pos hfull,HxFile.saveAccesses,if_neg hmissing]
    exact List.mem_append_left _ (List.mem_singleton.mpr rfl)

theorem sent_onItemlist {mapName : Bytes} {items : List Bytes} {d : Disk}
    (h : ∀ path, .openRead path ∈ downloadAccesses mapName (items.map cString) →
      d.files (fileAt path) = s.disk.files (fileAt path)) :
    (onItemlist pb { s with disk := d } read ⟨mapName :: items⟩).sent =
      (onItemlist pb s read ⟨mapName :: items⟩).sent := by
  simp only [onItemlist,onReceiveDownloadMapRequest_eq]
  by_cases hvalid : ∀ n ∈ items.map cString, ValidUtf8 (filePath mapName n)
  · have hpaths : ((items.map cString).map (filePath mapName)).takeWhile (fun path => decide (ValidUtf8 path)) =
        (items.map cString).map (filePath mapName) := by
      rw [List.takeWhile_eq_self_iff]
      intro path hpath
      obtain ⟨n,hn,rfl⟩ := List.mem_map.mp hpath
      exact decide_eq_true (hvalid n hn)
    rw [if_pos hvalid,if_pos hvalid,List.flatMap_def,List.flatMap_def]
    refine congrArg List.flatten (List.map_congr_left fun x hx => ?_)
    have hfile : d.files (fileAt (filePath mapName x.1)) = s.disk.files (fileAt (filePath mapName x.1)) := by
      refine h _ ?_
      rw [downloadAccesses,hpaths]
      exact List.mem_map_of_mem (List.mem_map_of_mem (List.fst_mem_of_mem_zipIdx hx))
    simp only [answer,readFile,hfile]
  · rw [if_neg hvalid,if_neg hvalid]

theorem dispatch_footprint : Footprint pb s read save m := by
  rcases dispatch_cases pb s read save m with ⟨file,-,hd,ha⟩ | ⟨mapName,items,-,hd,ha⟩ | ⟨hd,ha,hsent⟩
  · refine ⟨fun p h => ?_,fun p h => ?_,fun d _ => ?_⟩
    · rw [hd] at h
      exact ha ▸ openWrite_of_files_ne h
    · rw [hd] at h
      exact ha ▸ createDirectory_of_dirs_ne h
    · rw [hd,hd]
      rfl
  · refine ⟨fun p h => ?_,fun p h => ?_,fun d h => ?_⟩
    · rw [hd,onItemlist_server] at h
      exact absurd rfl h
    · rw [hd,onItemlist_server] at h
      exact absurd rfl h
    · rw [hd,hd]
      exact sent_onItemlist pb s read (ha ▸ h)
  · refine ⟨fun p h => ?_,fun p h => ?_,fun d _ => hsent _⟩
    · rw [hd] at h
      exact absurd rfl h
    · rw [hd] at h
      exact absurd rfl h

end Footprint

theorem accesses_cons (pb : Protobuf) (s : Server) (r : Request) (rs : List Request) :
    accesses pb s (r :: rs) = dispatchAccesses s r.message ++ accesses pb (serve pb s r).1 rs := List.flatMap_cons

/-- What a run leaves changed on the disk, it asked for. -/
theorem run_footprint (pb : Protobuf) (s : Server) (rs : List Request) (p : Place) :
    ((final (serve pb) s rs).disk.files p ≠ s.disk.files p →
      ∃ path, fileAt path = p ∧ .openWrite path ∈ accesses pb s rs) ∧
    ((final (serve pb) s rs).disk.dirs p ≠ s.disk.dirs p →
      ∃ path, resolve path = p ∧ .createDirectory path ∈ accesses pb s rs) := by
  induction rs generalizing s with
  | nil => exact ⟨fun h => absurd rfl h,fun h => absurd rfl h⟩
  | cons r rs ih =>
    have hstep := dispatch_footprint pb s r.read r.save r.message
    obtain ⟨hfiles,hdirs⟩ := ih (serve pb s r).1
    rw [final_cons,accesses_cons]
    constructor
    · intro h
      by_cases hchanged : (serve pb s r).1.disk.files p = s.disk.files p
      · obtain ⟨path,hpath,hmem⟩ := hfiles (hchanged ▸ h)
        exact ⟨path,hpath,List.mem_append_right _ hmem⟩
      · obtain ⟨path,hpath,hmem⟩ := hstep.files p hchanged
        exact ⟨path,hpath,List.mem_append_left _ hmem⟩
    · intro h
      by_cases hchanged : (serve pb s r).1.disk.dirs p = s.disk.dirs p
      · obtain ⟨path,hpath,hmem⟩ := hdirs (hchanged ▸ h)
        exact ⟨path,hpath,List.mem_append_right _ hmem⟩
      · obtain ⟨path,hpath,hmem⟩ := hstep.dirs p hchanged
        exact ⟨path,hpath,List.mem_append_left _ hmem⟩

/-- Every pending entry has the names of one message. -/
def NamesFrom (ms : List Message) (s : Server) : Prop :=
  ∀ k f, s.filesReceiver.lookup k = some f →
    ∃ m ∈ ms, ∃ file, m.payload = .file file ∧ f.mapName = file.mapName ∧ f.fileName = file.fileName

section Names
variable {ms : List Message} {s : Server}

theorem NamesFrom.mono {m : Message} (h : NamesFrom ms s) : NamesFrom (ms ++ [m]) s := by
  intro k f hf
  obtain ⟨m',hm',hnames⟩ := h k f hf
  exact ⟨m',List.mem_append_left _ hm',hnames⟩

theorem storedEntry_names (a : Option HxFile) (file : File) :
    ((storedEntry a file).mapName = file.mapName ∧ (storedEntry a file).fileName = file.fileName) ∨
    ∃ f, a = some f ∧ (storedEntry a file).mapName = f.mapName ∧ (storedEntry a file).fileName = f.fileName := by
  cases a with
  | none => exact Or.inl ⟨rfl,rfl⟩
  | some f =>
    by_cases hname : f.fileName = []
    · exact Or.inl (by simp [storedEntry,HxFile.setFileInfo_of_eq hname])
    · exact Or.inr ⟨f,rfl,by simp [storedEntry,HxFile.setFileInfo_of_ne hname]⟩

theorem NamesFrom.storing (h : NamesFrom ms s) {m : Message} {file : File} (hm : m.payload = .file file)
    (save : SaveOps) : ∃ m' ∈ ms ++ [m], ∃ file', m'.payload = .file file' ∧
      (s.storing (file,save)).mapName = file'.mapName ∧ (s.storing (file,save)).fileName = file'.fileName := by
  rcases storedEntry_names (s.filesReceiver.lookup file.fileName) file with hnames | ⟨f,hf,hmap,hfile⟩
  · exact ⟨m,by simp,file,hm,hnames⟩
  · obtain ⟨m',hm',file',hpayload,hmap',hfile'⟩ := h _ f hf
    exact ⟨m',List.mem_append_left _ hm',file',hpayload,hmap.trans hmap',hfile.trans hfile'⟩

theorem NamesFrom.upload (h : NamesFrom ms s) {m : Message} {file : File} (hm : m.payload = .file file)
    (save : SaveOps) : NamesFrom (ms ++ [m]) (s.upload (file,save)).1 := by
  intro k f hf
  by_cases hk : k = uploadKey (file,save)
  · subst hk
    have hdone : (s.upload (file,save)).2.done = false := by
      by_contra hdone
      rw [upload_eq] at hf hdone
      rw [lookup_setEntry,entryStep_of_done (by simpa using hdone)] at hf
      simp at hf
    rw [upload_lookup_of_not_done hdone] at hf
    obtain rfl := Option.some.inj hf
    exact h.storing hm save
  · rw [upload_eq] at hf
    rw [lookup_setEntry_ne _ hk] at hf
    exact h.mono k f hf

theorem NamesFrom.dispatch (h : NamesFrom ms s) (pb : Protobuf) (read : ℕ → ReadOps) (save : SaveOps)
    (m : Message) : NamesFrom (ms ++ [m]) (dispatch pb s read save m).server := by
  rcases dispatch_cases pb s read save m with ⟨file,hm,hd,-⟩ | ⟨mapName,items,-,hd,-⟩ | ⟨hd,-,-⟩
  · rw [hd]
    exact h.upload hm save
  · rw [hd,onItemlist_server]
    exact h.mono
  · rw [hd]
    exact h.mono

/-- The accesses of one message are spelled out by it, or by the message that opened its entry. -/
theorem NamesFrom.mem_spelled (h : NamesFrom ms s) (pb : Protobuf) {m : Message} {a : Access}
    (ha : a ∈ dispatchAccesses s m) : ∃ m' ∈ ms ++ [m], a ∈ spelled m' := by
  rcases dispatch_cases pb s (fun _ => {}) {} m with ⟨file,hm,-,hacc⟩ | ⟨mapName,items,hm,-,hacc⟩ | ⟨-,hacc,-⟩
  · obtain ⟨m',hm',file',hpayload,hmap,hfile⟩ := h.storing hm {}
    refine ⟨m',hm',?_⟩
    rw [hacc,uploadAccesses_eq s {}] at ha
    have hmem : a ∈ (s.storing (file,{})).saveAccesses s.disk := by
      split at ha
      · exact ha
      · simp at ha
    have hall : a = .createDirectory (s.storing (file,{})).dirPath ∨ a = .openWrite (s.storing (file,{})).fullPath := by
      unfold HxFile.saveAccesses at hmem
      rcases List.mem_append.mp hmem with hmem | hmem
      · split at hmem
        · simp at hmem
        · exact Or.inl (List.mem_singleton.mp hmem)
      · split at hmem
        · exact Or.inr (List.mem_singleton.mp hmem)
        · simp at hmem
    have hspelled : spelled m' = [.createDirectory (s.storing (file,{})).dirPath,
        .openWrite (s.storing (file,{})).fullPath] := by
      rw [spelled,hpayload,HxFile.dirPath,HxFile.fullPath,hmap,hfile]
      rfl
    rw [hspelled]
    rcases hall with rfl | rfl
    · exact List.mem_cons_self
    · exact List.mem_cons_of_mem _ List.mem_cons_self
  · refine ⟨m,by simp,?_⟩
    rw [hacc] at ha
    obtain ⟨path,hpath,rfl⟩ := List.mem_map.mp ha
    obtain ⟨n,hn,rfl⟩ := List.mem_map.mp ((List.takeWhile_sublist _).mem hpath)
    obtain ⟨name,hname,rfl⟩ := List.mem_map.mp hn
    simp only [spelled,hm]
    exact List.mem_map_of_mem (f := fun name => Access.openRead (filePath mapName (cString name))) hname
  · rw [hacc] at ha
    simp at ha

theorem path_of_mem_spelled {m : Message} {a : Access} (ha : a ∈ spelled m) :
    ∃ names, a.path = mapResPath ++ names := by
  have hroot : mapResPath.all (fun b => decide (b ≠ 0)) = true := by decide +kernel
  have hcut : ∀ mapName fileName, ∃ names, cString (filePath mapName fileName) = mapResPath ++ names := by
    intro mapName fileName
    unfold filePath cString
    rw [List.append_assoc,List.append_assoc,List.takeWhile_append_of_pos (List.all_eq_true.mp hroot)]
    exact ⟨_,rfl⟩
  obtain ⟨type,payload⟩ := m
  cases payload with
  | file file =>
    simp only [spelled,List.mem_cons,List.not_mem_nil,or_false] at ha
    rcases ha with rfl | rfl
    · exact ⟨file.mapName,rfl⟩
    · exact hcut _ _
  | itemlist l =>
    obtain ⟨items⟩ := l
    cases items with
    | nil => simp [spelled] at ha
    | cons mapName items =>
      obtain ⟨name,-,rfl⟩ := List.mem_map.mp ha
      exact hcut _ _
  | notSet => simp [spelled] at ha
  | heartbeat => simp [spelled] at ha
  | location => simp [spelled] at ha
  | fileTransferStatus => simp [spelled] at ha

theorem namesFrom_run (pb : Protobuf) (d : Disk) (rs : List Request) :
    NamesFrom (rs.map Request.message) (final (serve pb) (.fresh d) rs) := by
  induction rs using List.reverseRecOn with
  | nil => exact fun k f hf => absurd hf (by simp [Server.fresh])
  | append_singleton rs r ih =>
    rw [List.map_append,final_append]
    exact ih.dispatch pb r.read r.save r.message

end Names

/-- Every path is the root followed by names as a message has them, and it lies inside the root
exactly when these names come back to whatever directories they leave. -/
theorem accesses_spelled (pb : Protobuf) (d : Disk) (rs : List Request) (a : Access)
    (ha : a ∈ accesses pb (.fresh d) rs) :
    (∃ r ∈ rs, a ∈ spelled r.message) ∧
    ∃ names, a.path = mapResPath ++ names ∧ (InsideRoot a.path ↔ (descent (segments names)).Returns rootDirs) := by
  obtain ⟨x,hx,hax⟩ := List.mem_flatMap.mp ha
  obtain ⟨pre,post,hrs,hout⟩ := mem_trace (serve pb) hx
  rw [hout] at hax
  obtain ⟨m,hm,hspelled⟩ := (namesFrom_run pb d pre).mem_spelled pb hax
  have hmem : m ∈ rs.map Request.message := by
    rw [hrs]
    simp only [List.map_append,List.map_cons,List.mem_append,List.mem_cons,List.not_mem_nil,or_false] at hm ⊢
    tauto
  obtain ⟨r,hr,rfl⟩ := List.mem_map.mp hmem
  obtain ⟨names,hnames⟩ := path_of_mem_spelled hspelled
  refine ⟨⟨r,hr,hspelled⟩,names,hnames,?_⟩
  rw [hnames]
  exact insideRoot_iff

/-- One packet of one packet, into the map `..`. -/
def parentUpload : Request :=
  { message := { type := .file, payload := .file { mapName := utf8 "..", fileName := utf8 "f", filePacketTotal := 1 } } }

theorem accesses_spelled_parentUpload : (∃ r ∈ [parentUpload], Access.createDirectory (mapResPath ++ utf8 "..") ∈
      spelled r.message) ∧
    ∃ names, (Access.createDirectory (mapResPath ++ utf8 "..")).path = mapResPath ++ names ∧
      (InsideRoot (Access.createDirectory (mapResPath ++ utf8 "..")).path ↔
        (descent (segments names)).Returns rootDirs) :=
  accesses_spelled packetCodec .blank [parentUpload] _ (by decide +kernel)

theorem parent_upload_leaves_root : ¬ ∀ (pb : Protobuf) (d : Disk) (rs : List Request),
    ∀ a ∈ accesses pb (.fresh d) rs, InsideRoot a.path := by
  intro h
  have hinside := h packetCodec .blank [parentUpload] (.openWrite (filePath (utf8 "..") (utf8 "f"))) (by decide +kernel)
  exact absurd hinside (by decide +kernel)

end FDemo.MapServer
