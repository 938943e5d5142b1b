import FDemo.Libhv.BufferedWrites
import FDemo.MapServer.BufferedStream
import FDemo.MapServer.DownloadAnswer

/-! # From one disk to another

A server answers a download, its answers go through the write queue, the network
cuts the stream as it likes, and another server reads, unpacks, parses and stores
what it gets. The files arrive as they are, whatever the sockets do, as long as
they work and the answer fits into the write queue.
-/
namespace FDemo.MapServer
open Packet Libhv

section Replication
variable {pb : Protobuf} {mapName : Bytes} {names : List Bytes} {content : Bytes → Bytes}

def payloads (pb : Protobuf) (mapName : Bytes) (names : List Bytes) (content : Bytes → Bytes) : List Bytes :=
  (allFiles mapName names content).map fun file => pb.serializeToString (fileMessage file)

theorem frames_eq_payloads : names.flatMap (fun n => fileFrames pb mapName n (content n)) =
    (payloads pb mapName names content).map toBigEndianByteStream := by
  simp only [fileFrames_eq,payloads,allFiles,List.map_flatMap,List.map_map]
  rfl

/-- What a working socket and a peer that reads everything make of buffers that fit into the write queue. -/
theorem written_arrives {frames : List Bytes} {max : UInt32} {fuel : ℕ} (hfuel : UInt32.size ≤ fuel)
    {es : List WriteEvent} (hes : ∀ e ∈ es, e.Calm) (hframes : buffersWritten es = frames)
    (hfits : frames.flatten.length ≤ max.toNat) : ∃ io log,
      ({ maxWriteBufsize := max } : WriteIo).run fuel es = .ok (io,log) ∧
      ∀ ess : List (List Send), (∀ sends ∈ ess, sends ≠ [] ∧ ∀ send ∈ sends, send.Positive) →
        io.writeBufsize.toNat ≤ ess.length → ∃ io' log', io.run fuel (ess.map .writable) = .ok (io',log') ∧
          sentBytes log ++ sentBytes log' = frames.flatten ∧ io'.closed = false := by
  have hwritten : written es = frames.flatten := by rw [written_eq_flatten,hframes]
  obtain ⟨io,log,P,hrun,hwrites,hstate,hsplit⟩ := (writes_new max).run_calm rfl hfuel hes
    (by rw [hwritten,List.length_nil]; omega)
  rw [hwritten,List.nil_append] at hsplit
  refine ⟨io,log,hrun,fun ess hpos hlen => ?_⟩
  rw [hwrites.size] at hlen
  obtain ⟨io',log',hdrain,hsent,hclosed⟩ := hwrites.drain hfuel hpos hlen
  exact ⟨io',log',hdrain,by rw [hsent,hsplit],hclosed.trans (congrArg Prod.fst hstate)⟩

end Replication

/-- The frames are written with a working socket, which is writable until the queue is empty; another server
reads all of it, in any pieces, and handles the packages. It has the files then, each as it was, no other file
is touched, and nothing is pending. -/
def Replicates (pb : Protobuf) (mapName : Bytes) (names : List Bytes) (content : Bytes → Bytes) (target : Disk)
    (max : UInt32) (frames : List Bytes) : Prop :=
  ∀ es : List WriteEvent, (∀ e ∈ es, e.Calm) → buffersWritten es = frames →
    ∃ io log, ({ maxWriteBufsize := max } : WriteIo).run UInt32.size es = .ok (io,log) ∧
      ∀ ess : List (List Send), (∀ sends ∈ ess, sends ≠ [] ∧ ∀ send ∈ sends, send.Positive) →
        io.writeBufsize.toNat ≤ ess.length → ∃ io' log', io.run UInt32.size (ess.map .writable) = .ok (io',log') ∧
          ∀ counts : List ℕ, (∀ count ∈ counts, 0 < count) →
            (sentBytes log ++ sentBytes log').length ≤ counts.length →
            ∀ save : ℕ → SaveOps, (∀ i, (save i).Works) → ∃ rio rio' calls,
              ReadIo.hioSetUnpack streamSetting = .ok (streamSetting,rio) ∧
              rio.nioReads streamSetting (2 ^ 21 + 1) (sentBytes log ++ sentBytes log') counts = .ok (calls,rio',[]) ∧
              (deliver pb (.fresh target) save calls).filesReceiver = ∅ ∧
              (∀ n ∈ names, (deliver pb (.fresh target) save calls).disk.files (fileAt (filePath mapName n)) =
                some (content n)) ∧
              ∀ p, (∀ n ∈ names, fileAt (filePath mapName n) ≠ p) →
                (deliver pb (.fresh target) save calls).disk.files p = target.files p

/-- Download, write queue, network, unpacking, parsing, assembling and saving: another server ends up with
the same files, however the sockets take and give the bytes. -/
theorem download_replicates (pb : Protobuf) (mapName : Bytes) (names : List Bytes) (content : Bytes → Bytes)
    (source target : Disk) (hmap : ValidUtf8 mapName) (hutf8 : ∀ n ∈ names, ValidUtf8 n) (hnodup : names.Nodup)
    (hsize : ∀ n ∈ names, (content n).length ≤ 1200 * (2 ^ 31 - 1))
    (hstored : ∀ n ∈ names, source.files (fileAt (filePath mapName n)) = some (content n))
    (hpb : ∀ n ∈ names, ∀ file ∈ splitFiles mapName n (content n), pb.Inverts (fileMessage file) ∧
      (pb.serializeToString (fileMessage file)).length ≤ 2 ^ 21 - 8)
    (max : UInt32)
    (hqueue : (names.flatMap fun n => fileFrames pb mapName n (content n)).flatten.length ≤ max.toNat) :
    ∃ frames, onReceiveDownloadMapRequest pb source (fun _ => {}) mapName names = .ok frames ∧
      Replicates pb mapName names content target max frames := by
  refine ⟨_,download_readable pb hmap hutf8 hstored,fun es hes hframes => ?_⟩
  obtain ⟨io,log,hrun,hdrains⟩ := written_arrives le_rfl hes hframes hqueue
  refine ⟨io,log,hrun,fun ess hpos hlen => ?_⟩
  obtain ⟨io',log',hdrain,hsent,-⟩ := hdrains ess hpos hlen
  refine ⟨io',log',hdrain,fun counts hcounts hall save hsave => ?_⟩
  have hfit : ∀ x ∈ payloads pb mapName names content, Fits x := by
    intro x hx
    obtain ⟨file,hfile,rfl⟩ := List.mem_map.mp hx
    obtain ⟨n,hn,hmem⟩ := List.mem_flatMap.mp hfile
    exact (hpb n hn file hmem).2
  rw [hsent,frames_eq_payloads] at hall
  obtain ⟨rio,rio',hset,hreads,-,-⟩ := nioReads_frames hfit hcounts hall (show _ < 2 ^ 21 + 1 by decide)
  have hdelivery : Delivery pb mapName names content save
      (names.flatMap fun n => fileFrames pb mapName n (content n)) := by
    refine ⟨hsave,hmap,hutf8,hnodup,hsize,consistent_of_stored hstored,fun n hn m hm => ?_,.refl _⟩
    rw [messages_eq] at hm
    obtain ⟨file,hfile,rfl⟩ := List.mem_map.mp hm
    exact (hpb n hn file hfile).1
  rw [hsent]
  refine ⟨rio,rio',_,hset,?_,hdelivery.filesReceiver_eq target,fun n hn => hdelivery.files_eq target hn,
    fun p hp => hdelivery.files_other target hp⟩
  rw [frames_eq_payloads]
  exact hreads

theorem download_replicates_twoFiles :
    ∃ frames, onReceiveDownloadMapRequest packetCodec twoFiles (fun _ => {}) (utf8 "m") [utf8 "a",utf8 "b"] =
        .ok frames ∧
      Replicates packetCodec (utf8 "m") [utf8 "a",utf8 "b"] twoContents .blank 0x1000000 frames :=
  download_replicates packetCodec (utf8 "m") [utf8 "a",utf8 "b"] twoContents twoFiles .blank (by decide +kernel)
    (by decide +kernel) (by decide +kernel) (by decide +kernel) (by decide +kernel) (by decide +kernel) 0x1000000
    (by decide +kernel)

end FDemo.MapServer
