import FDemo.Foundation.Mealy
import FDemo.MapServer.Assembly

/-! # The upload branch as a machine on file entries

The branch of `tcpServer.onMessage` that receives a file makes three steps on
the shared map `filesReceiver`: look up and set the file info, look up and
receive, erase. One upload packet, with the operating system's answers for the
save it may start, is an event; the machine on the whole map is the keyed lift
of a machine on the one entry that the packet's file name selects.
-/
namespace FDemo.MapServer
open Packet Mealy

abbrev FilesReceiver := Finmap fun _ : Bytes => HxFile

structure Server where
  filesReceiver : FilesReceiver := ∅
  disk : Disk

/-- An upload packet and the answers to the save it may start. -/
abbrev Upload := File × SaveOps

namespace Server

/-- `filesReceiver[fileName]`, where a missing entry is created with its defaults. -/
def entry (s : Server) (fileName : Bytes) : HxFile := (s.filesReceiver.lookup fileName).getD {}

def setFileInfo (s : Server) (file : File) : Server :=
  let f := (s.entry file.fileName).setFileInfo file.mapName file.fileName file.filePacketTotal file.wholeFileMd5
  ⟨s.filesReceiver.insert file.fileName f,s.disk⟩

def receive (s : Server) (file : File) (ops : SaveOps) : Server × Receipt :=
  let r := (s.entry file.fileName).receive file.filePacketNum file.fileContent ops s.disk
  (⟨s.filesReceiver.insert file.fileName r.1,r.2.1⟩,r.2.2)

/-- `if(successed) filesReceiver.erase(fileName)`; an exception leaves the branch before it. -/
def eraseDone (s : Server) (file : File) (r : Receipt) : Server :=
  if r.done then { s with filesReceiver := s.filesReceiver.erase file.fileName } else s

def upload (s : Server) (e : Upload) : Server × Receipt :=
  let r := (s.setFileInfo e.1).receive e.1 e.2
  (r.1.eraseDone e.1 r.2,r.2)

end Server

def uploadKey (e : Upload) : Bytes := e.1.fileName

/-- The entry of a packet's file name once the packet is stored. -/
def storedEntry (a : Option HxFile) (file : File) : HxFile :=
  ((a.getD {}).setFileInfo file.mapName file.fileName file.filePacketTotal file.wholeFileMd5).stored
    file.filePacketNum file.fileContent

def entryStep (a : Option HxFile) (e : Upload) : Option HxFile × Receipt :=
  let f := storedEntry a e.1
  let r := f.outcome e.2
  (if r.done then none else some f,r)

/-- The entry that a packet is about to meet, with the packet stored. -/
def Server.storing (s : Server) (e : Upload) : HxFile :=
  storedEntry (s.filesReceiver.lookup (uploadKey e)) e.1

def saveEffect (files : Place → Option Bytes) : Receipt → Place → Option Bytes
  | .saved path bytes => Function.update files (fileAt path) (some bytes)
  | _ => files

theorem entryStep_snd (a : Option HxFile) (e : Upload) :
    (entryStep a e).2 = (storedEntry a e.1).outcome e.2 := rfl

theorem entryStep_of_done {a : Option HxFile} {e : Upload} (h : (entryStep a e).2.done = true) :
    (entryStep a e).1 = none := if_pos h

theorem entryStep_of_not_done {a : Option HxFile} {e : Upload} (h : (entryStep a e).2.done = false) :
    (entryStep a e).1 = some (storedEntry a e.1) := if_neg (by rw [← entryStep_snd,h]; simp)

section Upload
variable (s : Server) (e : Upload)

theorem entry_setFileInfo : (s.setFileInfo e.1).entry e.1.fileName =
    (s.entry e.1.fileName).setFileInfo e.1.mapName e.1.fileName e.1.filePacketTotal e.1.wholeFileMd5 := by
  simp [Server.entry,Server.setFileInfo]

/-- What the three steps of the branch do together. -/
theorem upload_eq : s.upload e =
    (⟨setEntry s.filesReceiver (uploadKey e) (entryStep (s.filesReceiver.lookup (uploadKey e)) e).1,
      (storedEntry (s.filesReceiver.lookup (uploadKey e)) e.1).settledDisk e.2 s.disk⟩,
      (entryStep (s.filesReceiver.lookup (uploadKey e)) e).2) := by
  have hentry : ((s.entry e.1.fileName).setFileInfo e.1.mapName e.1.fileName e.1.filePacketTotal
      e.1.wholeFileMd5).stored e.1.filePacketNum e.1.fileContent =
        storedEntry (s.filesReceiver.lookup (uploadKey e)) e.1 := rfl
  simp only [Server.upload,Server.receive,entry_setFileInfo,HxFile.receive_eq,hentry,Server.eraseDone]
  have hdisk : (s.setFileInfo e.1).disk = s.disk := rfl
  have hmap : (s.setFileInfo e.1).filesReceiver = s.filesReceiver.insert e.1.fileName
      ((s.entry e.1.fileName).setFileInfo e.1.mapName e.1.fileName e.1.filePacketTotal e.1.wholeFileMd5) := rfl
  cases hd : (entryStep (s.filesReceiver.lookup (uploadKey e)) e).2.done with
  | true =>
    rw [entryStep_of_done hd]
    rw [entryStep_snd] at hd
    simp only [hd,hdisk,hmap,↓reduceIte,Finmap.insert_insert,entryStep_snd]
    exact congrArg (fun m => ((⟨m,_⟩ : Server),_)) (setEntry_insert s.filesReceiver (uploadKey e) _ none)
  | false =>
    rw [entryStep_of_not_done hd]
    rw [entryStep_snd] at hd
    simp only [hd,hdisk,hmap,Finmap.insert_insert,setEntry,entryStep_snd,HxFile.settled]
    rfl

theorem upload_filesReceiver : keyed uploadKey entryStep s.filesReceiver e =
    ((s.upload e).1.filesReceiver,(s.upload e).2) := by
  rw [upload_eq]
  rfl

theorem upload_outcome : (s.upload e).2 = (s.storing e).outcome e.2 := by
  rw [upload_eq]
  rfl

variable {s e} in
theorem upload_lookup_of_not_done (h : (s.upload e).2.done = false) :
    (s.upload e).1.filesReceiver.lookup (uploadKey e) = some (s.storing e) := by
  rw [upload_eq] at h ⊢
  rw [lookup_setEntry,entryStep_of_not_done h]
  rfl

theorem upload_files : (s.upload e).1.disk.files = saveEffect s.disk.files (s.upload e).2 := by
  rw [upload_eq]
  simp only [entryStep_snd,HxFile.settledDisk]
  generalize storedEntry (s.filesReceiver.lookup (uploadKey e)) e.1 = f
  cases f.outcome e.2 <;> simp [saveEffect]

end Upload

section Run
variable (s : Server) (es : List Upload)

abbrev Server.run : Server := final Server.upload s es

abbrev Server.receipts : List (Upload × Receipt) := trace Server.upload s es

theorem run_append (es' : List Upload) : s.run (es ++ es') = (s.run es).run es' := final_append Server.upload s es es'

theorem receipts_append (es' : List Upload) :
    s.receipts (es ++ es') = s.receipts es ++ (s.run es).receipts es' := trace_append Server.upload s es es'

def packetsOf (k : Bytes) (es : List Upload) : List Upload := es.filter fun e => decide (uploadKey e = k)

theorem packetsOf_packetsOf (k : Bytes) : packetsOf k (packetsOf k es) = packetsOf k es := by
  simp [packetsOf]

def receiptsOf (k : Bytes) (t : List (Upload × Receipt)) : List (Upload × Receipt) :=
  t.filter fun x => decide (uploadKey x.1 = k)

theorem run_filesReceiver : (s.run es).filesReceiver = final (keyed uploadKey entryStep) s.filesReceiver es :=
  (final_map Server.upload (φ := Server.filesReceiver) upload_filesReceiver s es).symm

variable {s es} in
theorem fst_mem_of_mem_receipts {x : Upload × Receipt} (hx : x ∈ s.receipts es) : x.1 ∈ es := by
  rw [← trace_map_fst Server.upload s es]
  exact List.mem_map_of_mem hx

theorem run_lookup (k : Bytes) : (s.run es).filesReceiver.lookup k =
    final entryStep (s.filesReceiver.lookup k) (packetsOf k es) := by
  rw [run_filesReceiver]
  exact final_keyed_lookup uploadKey entryStep k _ es

theorem receiptsOf_receipts (k : Bytes) : receiptsOf k (s.receipts es) =
    trace entryStep (s.filesReceiver.lookup k) (packetsOf k es) := by
  have h : s.receipts es = trace (keyed uploadKey entryStep) s.filesReceiver es :=
    (trace_map Server.upload (φ := Server.filesReceiver) upload_filesReceiver s es).symm
  rw [h]
  exact trace_keyed_filter uploadKey entryStep k _ es

end Run

def savedAt (p : Place) : Receipt → Option Bytes
  | .saved path bytes => if fileAt path = p then some bytes else none
  | _ => none

theorem saveEffect_apply (files : Place → Option Bytes) (r : Receipt) (p : Place) :
    saveEffect files r p = (savedAt p r).or (files p) := by
  cases r with
  | saved path bytes =>
    by_cases hp : fileAt path = p
    · subst hp
      simp [saveEffect,savedAt]
    · simp [saveEffect,savedAt,hp,Function.update_of_ne (Ne.symm hp)]
  | _ => rfl

def writesTo (p : Place) (t : List (Upload × Receipt)) : List Bytes := t.filterMap fun x => savedAt p x.2

theorem run_files (s : Server) (es : List Upload) (p : Place) :
    (s.run es).disk.files p = (writesTo p (s.receipts es)).getLast?.or (s.disk.files p) := by
  induction es using List.reverseRecOn with
  | nil => rfl
  | append_singleton es e ih =>
    have hlast : s.receipts (es ++ [e]) = s.receipts es ++ [(e,((s.run es).upload e).2)] :=
      receipts_append s es [e]
    rw [show s.run (es ++ [e]) = ((s.run es).upload e).1 from run_append s es [e],
      upload_files,saveEffect_apply,ih,hlast]
    unfold writesTo
    rw [List.filterMap_append]
    cases hs : savedAt p ((s.run es).upload e).2 with
    | none => simp [hs]
    | some bytes => simp [hs]

theorem files_of_writesTo {s : Server} {es : List Upload} {p : Place} {bytes : Bytes}
    (hall : ∀ x ∈ writesTo p (s.receipts es), x = bytes) (hne : writesTo p (s.receipts es) ≠ []) :
    (s.run es).disk.files p = some bytes := by
  rw [run_files,List.getLast?_eq_some_getLast hne,hall _ (List.getLast_mem hne)]
  rfl

theorem savedAt_eq (p : Place) (r : Receipt) :
    savedAt p r = r.save.bind fun x => if fileAt x.1 = p then some x.2 else none := by
  cases r <;> rfl

theorem writesTo_eq (p : Place) (t : List (Upload × Receipt)) : writesTo p t =
    (t.filterMap fun x => x.2.save).filterMap fun x => if fileAt x.1 = p then some x.2 else none := by
  simp only [writesTo,savedAt_eq,List.filterMap_filterMap]

section OneName
variable (s : Server) {k : Bytes} {es : List Upload} (hk : ∀ e ∈ es, uploadKey e = k)
include hk

theorem packetsOf_eq_self : packetsOf k es = es :=
  List.filter_eq_self.mpr (fun e he => by simpa using hk e he)

theorem packetsOf_eq_nil {j : Bytes} (hj : j ≠ k) : packetsOf j es = [] :=
  List.filter_eq_nil_iff.mpr (fun e he => by simpa [hk e he] using hj.symm)

theorem receipts_eq_trace : s.receipts es = trace entryStep (s.filesReceiver.lookup k) es := by
  have hself : receiptsOf k (s.receipts es) = s.receipts es := by
    exact List.filter_eq_self.mpr (fun x hx => by simpa using hk x.1 (fst_mem_of_mem_receipts hx))
  rw [← hself,receiptsOf_receipts,packetsOf_eq_self hk]

end OneName

def resultsOf (k : Bytes) (t : List (Upload × Receipt)) : List (Option Bool) :=
  (receiptsOf k t).map fun x => x.2.returned

/-- The paths and bytes written when the file completed. -/
def savesOf (k : Bytes) (t : List (Upload × Receipt)) : List (Bytes × Bytes) :=
  (receiptsOf k t).filterMap fun x => x.2.save

/-- Packets of other files change neither the entry for `k`, nor the results, nor what is written. -/
theorem run_projection (s : Server) (es : List Upload) (k : Bytes) :
    (s.run es).filesReceiver.lookup k = (s.run (packetsOf k es)).filesReceiver.lookup k ∧
    resultsOf k (s.receipts es) = resultsOf k (s.receipts (packetsOf k es)) ∧
    savesOf k (s.receipts es) = savesOf k (s.receipts (packetsOf k es)) := by
  have hreceipts : receiptsOf k (s.receipts es) = receiptsOf k (s.receipts (packetsOf k es)) := by
    rw [receiptsOf_receipts,receiptsOf_receipts,packetsOf_packetsOf]
  refine ⟨?_,?_,?_⟩
  · rw [run_lookup,run_lookup,packetsOf_packetsOf]
  · rw [resultsOf,hreceipts,resultsOf]
  · rw [savesOf,hreceipts,savesOf]

end FDemo.MapServer
