import FDemo.MapServer.DownloadAnswer
import FDemo.MapServer.Transfers

/-! # The server is an atomic file store

Clients upload version after version of their files, packet by packet, and ask
for files in between. The abstract store knows no packets: a version is put whole
with the last packet of it, and a request is answered with what is stored. A run
of the server gives the answers of the abstract store, whatever the messages and
their order, as long as the handler is called for one message after the other, the
saves succeed and the packets of each file name are versions one after the other.
-/
namespace FDemo.MapServer
open Packet Mealy

/-- One version of a file: a full upload, with its packets in the order in which they arrive. -/
structure Version where
  upload : FullUpload
  files : List File
  perm : upload.packets.Perm files

namespace Version

def info (v : Version) : FileInfo := v.upload.info

def content (v : Version) : Bytes := v.upload.content

theorem transfer (v : Version) : Transfer v.info v.files := v.upload.transfer.perm v.perm

theorem transfer_bytes (v : Version) : Transfer.bytes v.info v.files = v.content :=
  (v.upload.transfer.bytes_perm v.perm).trans v.upload.bytes_eq

/-- The version that the `n`-th packet completes. -/
def ending : List Version → ℕ → Option Version
  | [], _ => none
  | v :: vs, n =>
    if n < v.files.length then none else if n = v.files.length then some v else ending vs (n - v.files.length)

theorem mem_of_ending {vs : List Version} {n : ℕ} {v : Version} (h : ending vs n = some v) : v ∈ vs := by
  induction vs generalizing n with
  | nil => exact absurd h (by simp [ending])
  | cons w vs ih =>
    unfold ending at h
    split at h
    · exact absurd h (Option.some_ne_none v).symm
    · split at h
      · obtain rfl := Option.some.inj h
        exact List.mem_cons_self
      · exact List.mem_cons_of_mem _ (ih h)

def packets (vs : List Version) : List File := vs.flatMap files

/-- A packet completes the version it ends and only that. -/
theorem outcome {vs : List Version} {pre post : List File} {w : File} (h : packets vs = pre ++ w :: post) :
    (entryStep (final entryStep none (pre.map succeeding)) (succeeding w)).2 =
      match ending vs (pre.length + 1) with
      | some v => .saved v.info.fullPath v.content
      | none => .waiting := by
  induction vs generalizing pre with
  | nil => exact absurd h (by simp [packets])
  | cons v vs ih =>
    have hsplit : v.files ++ packets vs = pre ++ w :: post := h
    rcases List.append_eq_append_iff.mp hsplit with ⟨tail,hpre,hrest⟩ | ⟨head,hfiles,hrest⟩
    · -- the packet belongs to a later version, which begins with nothing held
      have hfresh : final entryStep none (pre.map succeeding) = final entryStep none (tail.map succeeding) := by
        rw [hpre,List.map_append,final_append,v.transfer.completed.1]
      have hlt : ¬ pre.length + 1 < v.files.length := by
        rw [hpre,List.length_append]
        omega
      have hne : ¬ pre.length + 1 = v.files.length := by
        rw [hpre,List.length_append]
        omega
      have hsub : pre.length + 1 - v.files.length = tail.length + 1 := by
        rw [hpre,List.length_append]
        omega
      rw [hfresh,ih hrest]
      simp only [ending,hlt,hne,↓reduceIte,hsub]
    · cases head with
      | nil =>
        rw [List.append_nil] at hfiles
        have hfresh :
            final entryStep none (pre.map succeeding) = final entryStep none (([] : List File).map succeeding) := by
          rw [← hfiles,v.transfer.completed.1]
          rfl
        have hlt : ¬ pre.length + 1 < v.files.length := by
          rw [hfiles]
          omega
        have hne : ¬ pre.length + 1 = v.files.length := by
          rw [hfiles]
          omega
        have hsub : pre.length + 1 - v.files.length = ([] : List File).length + 1 := by
          rw [hfiles,List.length_nil]
          omega
        rw [hfresh,ih (show packets vs = [] ++ w :: post from hrest.symm)]
        simp only [ending,hlt,hne,↓reduceIte,hsub]
      | cons w' head =>
        obtain ⟨rfl,-⟩ := List.cons.inj hrest
        rw [v.transfer.outcome hfiles,v.transfer_bytes]
        have hlen : v.files.length = pre.length + 1 + head.length := by
          rw [hfiles,List.length_append,List.length_cons]
          omega
        by_cases hnil : head = []
        · subst hnil
          have hlast : pre.length + 1 = v.files.length := by simpa using hlen.symm
          simp only [ending,hlast,lt_irrefl,↓reduceIte]
        · have hpos := List.length_pos_of_ne_nil hnil
          have hlt : pre.length + 1 < v.files.length := by omega
          simp only [ending,hlt,hnil,↓reduceIte]

end Version

/-- The packets of each file name are the packets of its versions, as far as they have come. -/
def Uploads (versions : Bytes → List Version) (ws : List File) : Prop :=
  ∀ k, named k ws <+: Version.packets (versions k)

theorem Uploads.of_append {versions : Bytes → List Version} {ws vs : List File} (h : Uploads versions (ws ++ vs)) :
    Uploads versions ws := by
  intro k
  have hpre : named k ws <+: named k (ws ++ vs) := by
    rw [named,named,List.filter_append]
    exact List.prefix_append _ _
  exact hpre.trans (h k)

/-! ### The abstract store -/

/-- What is stored in each file, and how many packets of each name have come. -/
structure AtomicStore where
  store : Place → Option Bytes
  taken : Bytes → ℕ

def fileIn (m : Message) : Option File :=
  if m.type = .file then
    match m.payload with
    | .file file => some file
    | _ => none
  else none

namespace AtomicStore

/-- A version is put with its last packet. -/
def upload (versions : Bytes → List Version) (a : AtomicStore) (fileName : Bytes) : AtomicStore where
  store := match Version.ending (versions fileName) (a.taken fileName + 1) with
    | some v => Function.update a.store v.info.place (some v.content)
    | none => a.store
  taken := Function.update a.taken fileName (a.taken fileName + 1)

/-- The answer to a request, file by file, or the exception of a path that does not convert. -/
def download (pb : Protobuf) (a : AtomicStore) (read : ℕ → ReadOps) (mapName : Bytes) (names : List Bytes) :
    List Bytes × Option Exception :=
  if ∀ n ∈ names, ValidUtf8 (filePath mapName n) then
    (names.zipIdx.flatMap fun x =>
      (if (read x.2).openRead && (read x.2).read then a.store (fileAt (filePath mapName x.1)) else none).elim []
        fun content => (splitFiles mapName x.1 content).map (packetFrame pb),none)
  else ([],some .rangeError)

def answer (pb : Protobuf) (a : AtomicStore) (r : Request) : List Bytes × Option Exception :=
  if r.message.type = .maplist then ([onReceiveMapRequest pb],none)
  else if r.message.type = .file then
    match r.message.payload with
    | .itemlist { items := [] } => ([],some .outOfRange)
    | .itemlist { items := mapName :: names } => a.download pb r.read mapName (names.map cString)
    | _ => ([],none)
  else ([],none)

def step (pb : Protobuf) (versions : Bytes → List Version) (a : AtomicStore) (r : Request) :
    AtomicStore × List Bytes × Option Exception :=
  (match fileIn r.message with
    | some file => a.upload versions file.fileName
    | none => a,a.answer pb r)

end AtomicStore

/-- The server, one message after the other: what it writes to the channel, and the exception that would
end the program. -/
def respond (pb : Protobuf) (s : Server) (r : Request) : Server × List Bytes × Option Exception :=
  let h := dispatch pb s r.read r.save r.message
  (h.server,h.sent,h.exception)

def uploadsOf (rs : List Request) : List File := rs.filterMap fun r => fileIn r.message

theorem uploadsOf_concat (rs : List Request) (r : Request) :
    uploadsOf (rs ++ [r]) = uploadsOf rs ++ (fileIn r.message).toList := by
  rw [uploadsOf,List.filterMap_append]
  cases hupload : fileIn r.message <;> simp [hupload,uploadsOf]

theorem dispatch_server (pb : Protobuf) (s : Server) (read : ℕ → ReadOps) (m : Message) :
    (dispatch pb s read {} m).server = match fileIn m with
      | some file => (s.upload (succeeding file)).1
      | none => s := by
  have hkind : ¬ MessageType.file = MessageType.maplist := by decide
  obtain ⟨type,payload⟩ := m
  by_cases hfile : type = .file
  · subst hfile
    cases payload with
    | file file => simp only [dispatch,hkind,↓reduceIte,onFile,fileIn,succeeding]
    | itemlist l =>
      obtain ⟨items⟩ := l
      cases items with
      | nil => simp [dispatch,hkind,onItemlist,fileIn]
      | cons mapName items =>
        simp only [dispatch,hkind,↓reduceIte,onItemlist,fileIn]
        cases onReceiveDownloadMapRequest pb s.disk read mapName (items.map cString) <;> rfl
    | notSet => simp [dispatch,hkind,fileIn]
    | heartbeat => simp [dispatch,hkind,fileIn]
    | location => simp [dispatch,hkind,fileIn]
    | fileTransferStatus => simp [dispatch,hkind,fileIn]
  · have hnone : fileIn ⟨type,payload⟩ = none := if_neg hfile
    rw [hnone]
    by_cases hmaplist : type = .maplist <;> simp [dispatch,hfile,hmaplist]

/-- Requests are answered from the files alone. -/
theorem dispatch_answer (pb : Protobuf) {s : Server} {a : AtomicStore} (hfiles : s.disk.files = a.store) (r : Request)
    (hsave : r.save.Works)
    (hsaved : ∀ file, fileIn r.message = some file → (s.upload (succeeding file)).2 ≠ .threw) :
    (respond pb s r).2 = a.answer pb r := by
  have hkind : ¬ MessageType.file = MessageType.maplist := by decide
  obtain ⟨⟨type,payload⟩,read,save⟩ := r
  obtain rfl := hsave.eq
  change ((dispatch pb s read {} ⟨type,payload⟩).sent,(dispatch pb s read {} ⟨type,payload⟩).exception) = _
  by_cases hmaplist : type = .maplist
  · simp [dispatch,AtomicStore.answer,hmaplist]
  by_cases hfile : type = .file
  · subst hfile
    cases payload with
    | itemlist l =>
      obtain ⟨items⟩ := l
      cases items with
      | nil => simp [dispatch,AtomicStore.answer,hkind,onItemlist]
      | cons mapName items =>
        simp only [dispatch,AtomicStore.answer,hkind,↓reduceIte,onItemlist,AtomicStore.download]
        rw [onReceiveDownloadMapRequest_eq]
        by_cases hvalid : ∀ n ∈ items.map cString, ValidUtf8 (filePath mapName n)
        · rw [if_pos hvalid,if_pos hvalid]
          simp only [answer_eq,readFile,hfiles]
        · rw [if_neg hvalid,if_neg hvalid]
    | file file =>
      have hthrew : ¬ (s.upload (file,{})).2 = .threw := hsaved file rfl
      simp [dispatch,AtomicStore.answer,hkind,onFile,hthrew]
    | notSet => simp [dispatch,AtomicStore.answer,hkind]
    | heartbeat => simp [dispatch,AtomicStore.answer,hkind]
    | location => simp [dispatch,AtomicStore.answer,hkind]
    | fileTransferStatus => simp [dispatch,AtomicStore.answer,hkind]
  · simp [dispatch,AtomicStore.answer,hmaplist,hfile]

/-! ### The server refines the store -/

section Refinement
variable (pb : Protobuf) (versions : Bytes → List Version) (d : Disk) {rs : List Request}

/-- Every save that a message starts succeeds. -/
def SavesWork (rs : List Request) : Prop := ∀ r ∈ rs, r.save.Works

theorem SavesWork.of_append {rs' : List Request} (h : SavesWork (rs ++ rs')) : SavesWork rs :=
  fun r hr => h r (List.mem_append_left _ hr)

theorem SavesWork.last {r : Request} (h : SavesWork (rs ++ [r])) : r.save.Works :=
  h r (List.mem_append_right _ (List.mem_singleton_self r))

theorem respond_server (s : Server) {r : Request} (hsave : r.save.Works) : (respond pb s r).1 =
    match fileIn r.message with
      | some file => (s.upload (succeeding file)).1
      | none => s := by
  rw [respond,hsave.eq]
  exact dispatch_server pb s r.read r.message

theorem final_respond (hsaves : SavesWork rs) :
    final (respond pb) (.fresh d) rs = (Server.fresh d).run ((uploadsOf rs).map succeeding) := by
  induction rs using List.reverseRecOn with
  | nil => rfl
  | append_singleton rs r ih =>
    rw [final_append,ih hsaves.of_append,final_cons,final_nil,respond_server pb _ hsaves.last,uploadsOf_concat,
      List.map_append,run_append]
    cases hupload : fileIn r.message <;> rfl

def AtomicStore.start : AtomicStore := ⟨d.files,fun _ => 0⟩

theorem taken_run (rs : List Request) (k : Bytes) :
    (final (AtomicStore.step pb versions) (.start d) rs).taken k = (named k (uploadsOf rs)).length := by
  induction rs using List.reverseRecOn with
  | nil => rfl
  | append_singleton rs r ih =>
    rw [final_append,final_cons,final_nil,uploadsOf_concat,named,List.filter_append,List.length_append,← named,← ih]
    cases hupload : fileIn r.message with
    | none => simp [AtomicStore.step,hupload]
    | some file =>
      by_cases hk : file.fileName = k
      · subst hk
        simp [AtomicStore.step,hupload,AtomicStore.upload]
      · simp [AtomicStore.step,hupload,AtomicStore.upload,hk,Function.update_of_ne (Ne.symm hk)]

variable {versions}

/-- The next packet ends the version that the number of packets says. -/
theorem upload_outcome_run {ws : List File} {w : File} (h : Uploads versions (ws ++ [w])) :
    (((Server.fresh d).run (ws.map succeeding)).upload (succeeding w)).2 =
      match Version.ending (versions w.fileName) ((named w.fileName ws).length + 1) with
      | some v => .saved v.info.fullPath v.content
      | none => .waiting := by
  obtain ⟨post,hpost⟩ := h w.fileName
  have hsplit : Version.packets (versions w.fileName) = named w.fileName ws ++ w :: post := by
    rw [← hpost,named,List.filter_append,List.filter_cons_of_pos (by simp)]
    simp [named]
  have hkey : uploadKey (succeeding w) = w.fileName := rfl
  rw [upload_eq,hkey,run_lookup,packetsOf_succeeding,Server.fresh,Finmap.lookup_empty]
  exact Version.outcome hsplit

theorem upload_ne_threw {ws : List File} {w : File} (h : Uploads versions (ws ++ [w])) :
    (((Server.fresh d).run (ws.map succeeding)).upload (succeeding w)).2 ≠ .threw := by
  rw [upload_outcome_run d h]
  split <;> exact Receipt.noConfusion

theorem files_run (hsaves : SavesWork rs) (h : Uploads versions (uploadsOf rs)) :
    (final (respond pb) (.fresh d) rs).disk.files = (final (AtomicStore.step pb versions) (.start d) rs).store := by
  induction rs using List.reverseRecOn with
  | nil => rfl
  | append_singleton rs r ih =>
    rw [uploadsOf_concat] at h
    have hbefore := ih hsaves.of_append h.of_append
    have htaken := taken_run pb versions d rs
    rw [final_append,final_append,final_cons,final_cons,final_nil,final_nil,respond_server pb _ hsaves.last]
    cases hupload : fileIn r.message with
    | none => simpa only [AtomicStore.step,hupload] using hbefore
    | some file =>
      rw [hupload] at h
      have hout := upload_outcome_run d h
      simp only [AtomicStore.step,hupload,AtomicStore.upload]
      rw [upload_files,hbefore,htaken]
      rw [final_respond pb d hsaves.of_append,hout]
      cases Version.ending (versions file.fileName) ((named file.fileName (uploadsOf rs)).length + 1) <;> rfl

/-- Each message is answered from the store as it is then. -/
theorem answer_run {r : Request} (hsaves : SavesWork (rs ++ [r])) (h : Uploads versions (uploadsOf (rs ++ [r]))) :
    (respond pb (final (respond pb) (.fresh d) rs) r).2 =
      (final (AtomicStore.step pb versions) (.start d) rs).answer pb r := by
  rw [uploadsOf_concat] at h
  refine dispatch_answer pb (files_run pb d hsaves.of_append h.of_append) r hsaves.last fun file hfile => ?_
  rw [hfile] at h
  rw [final_respond pb d hsaves.of_append]
  exact upload_ne_threw d h

/-- The store holds nothing but what was there before and whole versions. -/
theorem store_whole (versions : Bytes → List Version) (rs : List Request) (p : Place) :
    (final (AtomicStore.step pb versions) (.start d) rs).store p = d.files p ∨
      ∃ k, ∃ v ∈ versions k, v.info.place = p ∧
        (final (AtomicStore.step pb versions) (.start d) rs).store p = some v.content := by
  induction rs using List.reverseRecOn with
  | nil => exact Or.inl rfl
  | append_singleton rs r ih =>
    rw [final_append,final_cons,final_nil]
    cases hfile : fileIn r.message with
    | none => simpa only [AtomicStore.step,hfile] using ih
    | some file =>
      simp only [AtomicStore.step,hfile,AtomicStore.upload]
      cases hend : Version.ending (versions file.fileName)
          ((final (AtomicStore.step pb versions) (.start d) rs).taken file.fileName + 1) with
      | none => exact ih
      | some v =>
        by_cases hp : v.info.place = p
        · subst hp
          exact Or.inr ⟨file.fileName,v,Version.mem_of_ending hend,rfl,Function.update_self ..⟩
        · simpa only [Function.update_of_ne (Ne.symm hp)] using ih

theorem trace_run (hsaves : SavesWork rs) (h : Uploads versions (uploadsOf rs)) :
    trace (respond pb) (.fresh d) rs = trace (AtomicStore.step pb versions) (.start d) rs := by
  induction rs using List.reverseRecOn with
  | nil => rfl
  | append_singleton rs r ih =>
    have hanswer := answer_run pb d hsaves h
    rw [uploadsOf_concat] at h
    rw [trace_append,trace_append,ih hsaves.of_append h.of_append]
    simp only [trace_cons,trace_nil,hanswer]
    rfl

/-- Every answer that the server gives, and every exception, is that of the atomic store at that point;
the files on disk are those of the store, and none of them is ever a part of a version or a mixture. -/
theorem server_refines_store (rs : List Request) (hsaves : SavesWork rs) (h : Uploads versions (uploadsOf rs)) :
    trace (respond pb) (.fresh d) rs = trace (AtomicStore.step pb versions) (.start d) rs ∧
    (final (respond pb) (.fresh d) rs).disk.files = (final (AtomicStore.step pb versions) (.start d) rs).store ∧
    ∀ p, (final (respond pb) (.fresh d) rs).disk.files p = d.files p ∨ ∃ k, ∃ v ∈ versions k, v.info.place = p ∧
      (final (respond pb) (.fresh d) rs).disk.files p = some v.content := by
  have hfiles := files_run pb d hsaves h
  exact ⟨trace_run pb d hsaves h,hfiles,fun p => hfiles ▸ store_whole pb d versions rs p⟩

end Refinement

/-- The packets of a client that sends them in order. -/
def FullUpload.version (u : FullUpload) : Version := ⟨u,u.packets,.refl _⟩

def onlyVersions (u : FullUpload) (k : Bytes) : List Version := if u.fileName = k then [u.version] else []

theorem uploads_onlyVersions (u : FullUpload) : Uploads (onlyVersions u) u.packets := by
  have hname : ∀ w ∈ u.packets, w.fileName = u.fileName := fun w hw => congrArg FileInfo.fileName (u.info_of_mem hw)
  intro k
  by_cases hk : u.fileName = k
  · have hself : named k u.packets = u.packets :=
      List.filter_eq_self.mpr fun w hw => by simpa using (hname w hw).trans hk
    rw [hself,onlyVersions,if_pos hk]
    exact List.prefix_append _ _
  · have hnil : named k u.packets = [] :=
      List.filter_eq_nil_iff.mpr fun w hw => by simpa [hname w hw] using hk
    rw [hnil]
    exact List.nil_prefix

/-- A file of two packets, asked for between them and after them. -/
def askedTwice : List Request :=
  [{ message := fileMessage (secondUpload.packet 0) },{ message := downloadRequest (utf8 "m") [utf8 "f"] },
    { message := fileMessage (secondUpload.packet 1) },{ message := downloadRequest (utf8 "m") [utf8 "f"] }]

theorem server_refines_store_askedTwice :
    trace (respond packetCodec) (.fresh .blank) askedTwice =
      trace (AtomicStore.step packetCodec (onlyVersions secondUpload)) (.start .blank) askedTwice ∧
    (final (respond packetCodec) (.fresh .blank) askedTwice).disk.files =
      (final (AtomicStore.step packetCodec (onlyVersions secondUpload)) (.start .blank) askedTwice).store ∧
    ∀ p, (final (respond packetCodec) (.fresh .blank) askedTwice).disk.files p = Disk.blank.files p ∨
      ∃ k, ∃ v ∈ onlyVersions secondUpload k, v.info.place = p ∧
        (final (respond packetCodec) (.fresh .blank) askedTwice).disk.files p = some v.content :=
  server_refines_store packetCodec .blank askedTwice
    (by simp [SavesWork,askedTwice,works_default]) (uploads_onlyVersions secondUpload)

end FDemo.MapServer
