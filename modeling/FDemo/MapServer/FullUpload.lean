import FDemo.MapServer.History
import FDemo.MapServer.Collecting

/-! # A full upload after any history

A client cuts a content into chunks and sends them as the packets `0..n-1` of
`n`. A fresh entry takes them all and saves the content with the last one. An
entry that is left over keeps its total, its map name and its packets, and the
content arrives only if none of these gets in the way.
-/
namespace FDemo.MapServer
open Packet Mealy

structure FullUpload where
  mapName : Bytes
  fileName : Bytes
  wholeFileMd5 : Bytes
  chunks : List Bytes
  chunks_ne_nil : chunks ≠ []
  length_lt : chunks.length < 2 ^ 31
  mapName_utf8 : ValidUtf8 mapName
  fileName_utf8 : ValidUtf8 fileName

namespace FullUpload
variable (u : FullUpload)

def info : FileInfo := ⟨u.mapName,u.fileName,Int32.ofNat u.chunks.length,u.wholeFileMd5⟩

def content : Bytes := u.chunks.flatten

def chunk (i : ℕ) : Bytes := u.chunks.getD i []

def packet (i : ℕ) : File :=
  { mapName := u.mapName, fileName := u.fileName, fileContent := u.chunk i, filePacketNum := Int32.ofNat i,
    filePacketTotal := Int32.ofNat u.chunks.length, wholeFileMd5 := u.wholeFileMd5 }

def packets : List File := (List.range u.chunks.length).map u.packet

@[simp] theorem length_packets : u.packets.length = u.chunks.length := by simp [packets]

theorem info_of_mem {w : File} (hw : w ∈ u.packets) : fileInfo w = u.info := by
  obtain ⟨i,-,rfl⟩ := List.mem_map.mp hw
  rfl

theorem numbers_packets : numbers u.packets = (List.range u.chunks.length).map Int32.ofNat := by
  simp [numbers,packets,packet,Function.comp_def]

theorem toInt_total : u.info.filePacketTotal.toInt = u.chunks.length :=
  Int32.toInt_ofNat_of_lt u.length_lt

theorem pairwise_numbers : (numbers u.packets).Pairwise (· < ·) := by
  rw [numbers_packets]
  refine List.pairwise_map.mpr (List.Pairwise.imp_of_mem ?_ List.pairwise_lt_range)
  intro i j _ hj hij
  have hlt := u.length_lt
  have hjn := List.mem_range.mp hj
  rw [Int32.lt_iff_toInt_lt,Int32.toInt_ofNat_of_lt (by omega),Int32.toInt_ofNat_of_lt (by omega)]
  exact_mod_cast hij

theorem mem_numbers {m : Int32} : m ∈ numbers u.packets ↔ 0 ≤ m.toInt ∧ m.toInt < u.chunks.length := by
  have hlt := u.length_lt
  rw [numbers_packets]
  constructor
  · intro hm
    obtain ⟨i,hi,rfl⟩ := List.mem_map.mp hm
    have hin := List.mem_range.mp hi
    rw [Int32.toInt_ofNat_of_lt (by omega)]
    omega
  · rintro ⟨h0,hm⟩
    refine List.mem_map.mpr ⟨m.toInt.toNat,List.mem_range.mpr (by omega),?_⟩
    apply Int32.toInt_inj.mp
    rw [Int32.toInt_ofNat_of_lt (by omega)]
    omega

theorem path_utf8 : ValidUtf8 u.info.fullPath := mapResPath_utf8 u.mapName_utf8 u.fileName_utf8

theorem transfer : Transfer u.info u.packets where
  info _ hw := u.info_of_mem hw
  nodup := u.pairwise_numbers.imp ne_of_lt
  total := by rw [toInt_total,length_packets]
  ne_nil := by simpa [packets] using u.chunks_ne_nil
  path_utf8 := u.path_utf8

theorem entryOr_storeAll (m : PacketMap) {i : ℕ} (hi : i < u.chunks.length) :
    entryOr (storeAll m u.packets) (Int32.ofNat i) = u.chunk i := by
  have hmem : u.packet i ∈ u.packets := List.mem_map_of_mem (List.mem_range.mpr hi)
  have hlookup := lookup_storeAll_of_mem (m := m) (u.pairwise_numbers.imp ne_of_lt) hmem
  rw [entryOr,show Int32.ofNat i = (u.packet i).filePacketNum from rfl,hlookup]
  rfl

theorem flatMap_chunk : (List.range u.chunks.length).flatMap u.chunk = u.content := by
  have hchunks : (List.range u.chunks.length).map u.chunk = u.chunks := by
    apply List.ext_getElem
    · simp
    · intro i hi _
      simp only [List.length_map,List.length_range] at hi
      simp [chunk,hi]
  rw [List.flatMap_def,hchunks,content]

theorem flatMap_numbers (m : PacketMap) :
    (numbers u.packets).flatMap (entryOr (storeAll m u.packets)) = u.content := by
  rw [numbers_packets,List.flatMap_map,← flatMap_chunk,List.flatMap_def,List.flatMap_def]
  congr 1
  apply List.map_congr_left
  intro i hi
  exact u.entryOr_storeAll m (List.mem_range.mp hi)

/-- The entry, once full, assembles the content exactly when its total cuts no chunk off and no
packet left over lies between the chunks and the total. -/
theorem assembled_eq_content_iff (a : Option HxFile) :
    (collecting a u.info u.packets).assembled = u.content ↔
      (∀ i < u.chunks.length, (opened a u.info).filePacketTotal.toInt ≤ i → u.chunk i = []) ∧
      ∀ m : Int32, u.chunks.length ≤ m.toInt → m.toInt < (opened a u.info).filePacketTotal.toInt →
        entryOr (a.getD {}).filePackets m = [] := by
  have hold : ∀ m : Int32, u.chunks.length ≤ m.toInt →
      entryOr (storeAll (a.getD {}).filePackets u.packets) m = entryOr (a.getD {}).filePackets m := by
    intro m hm
    have hnot : m ∉ numbers u.packets := by
      rw [mem_numbers]
      omega
    rw [entryOr,lookup_storeAll_of_notMem hnot,entryOr]
  have hloop : ∀ {m : Int32}, m ∈ (collecting a u.info u.packets).loopNumbers ↔
      0 ≤ m.toInt ∧ m.toInt < (opened a u.info).filePacketTotal.toInt := HxFile.mem_loopNumbers
  have hsorted := HxFile.pairwise_loopNumbers (collecting a u.info u.packets)
  rw [← u.flatMap_numbers (a.getD {}).filePackets,HxFile.assembled,collecting_filePackets]
  rcases le_total (u.chunks.length : ℤ) (opened a u.info).filePacketTotal.toInt with hle | hle
  · rw [eq_comm,flatMap_eq_iff_support _ u.pairwise_numbers hsorted
      (fun m hm _ => hloop.mpr (by have := u.mem_numbers.mp hm; omega))]
    constructor
    · refine fun h => ⟨fun i hi hti => by omega,fun m hm hlt => ?_⟩
      by_contra hne
      have hin := u.mem_numbers.mp (h m (hloop.mpr (by omega)) (by rw [hold m hm]; exact hne))
      omega
    · rintro ⟨-,hstale⟩ m hm hne
      obtain ⟨h0,hlt⟩ := hloop.mp hm
      refine u.mem_numbers.mpr ⟨h0,?_⟩
      by_contra hge
      exact hne ((hold m (by omega)).trans (hstale m (by omega) hlt))
  · rw [flatMap_eq_iff_support _ hsorted u.pairwise_numbers
      (fun m hm _ => u.mem_numbers.mpr (by have := hloop.mp hm; omega))]
    constructor
    · refine fun h => ⟨fun i hi hti => ?_,fun m hm hlt => by omega⟩
      by_contra hne
      have hto : (Int32.ofNat i).toInt = i := Int32.toInt_ofNat_of_lt (by have := u.length_lt; omega)
      have hin := hloop.mp (h (Int32.ofNat i) (u.mem_numbers.mpr (by omega))
        (by rw [u.entryOr_storeAll _ hi]; exact hne))
      omega
    · rintro ⟨hcut,-⟩ m hm hne
      obtain ⟨h0,hlt⟩ := u.mem_numbers.mp hm
      refine hloop.mpr ⟨h0,?_⟩
      by_contra hge
      have hm' : m = Int32.ofNat m.toInt.toNat := by
        apply Int32.toInt_inj.mp
        rw [Int32.toInt_ofNat_of_lt (by have := u.length_lt; omega)]
        omega
      rw [hm',u.entryOr_storeAll _ (by omega)] at hne
      exact hne (hcut _ (by omega) (by omega))

theorem bytes_eq (u : FullUpload) : Transfer.bytes u.info u.packets = u.content := by
  apply (u.assembled_eq_content_iff none).mpr
  rw [opened_none,u.toInt_total]
  exact ⟨fun i hi hti => by omega,fun m hm hlt => by omega⟩

theorem final_eq_none_iff (a : Option HxFile) : final entryStep a (u.packets.map succeeding) = none ↔
    (collecting a u.info u.packets).Completes ∧
    ∀ pre post, u.packets.dropLast = pre ++ post → pre ≠ [] → ¬ (collecting a u.info pre).Completes := by
  have hinfo : ∀ w ∈ u.packets, fileInfo w = u.info := fun w hw => u.info_of_mem hw
  constructor
  · intro hnone
    rcases held_or_completes a u.info u.packets with hheld | ⟨pre,w,post,hsplit,hcomp,hpre⟩
    · rw [(final_held hinfo hheld).1,held,if_neg u.transfer.ne_nil] at hnone
      exact absurd hnone (Option.some_ne_none _)
    · have hmem : ∀ {v : File}, v ∈ pre ++ [w] → v ∈ u.packets := by
        intro v hv
        rw [hsplit]
        simp only [List.mem_append,List.mem_cons] at hv ⊢
        tauto
      have hfirst : final entryStep a (u.packets.map succeeding) =
          final entryStep none (post.map succeeding) := by
        have hmid := (completed_last (fun v hv => hinfo v (hmem hv)) hpre hcomp).1
        rw [hsplit,show pre ++ w :: post = (pre ++ [w]) ++ post by simp,List.map_append,final_append,hmid]
      have hlen : post.length < u.chunks.length := by
        rw [← u.length_packets,hsplit]
        simp only [List.length_append,List.length_cons]
        omega
      have hnil : post = [] := by
        by_contra hne
        refine final_ne_none_of_short (i := u.info) (fun v hv => hinfo v (by simp [hsplit,hv])) hne ?_
          (hfirst ▸ hnone)
        rw [toInt_total]
        exact_mod_cast hlen
      subst hnil
      rw [hsplit]
      exact ⟨hcomp,fun p q hp => hpre p q (by simpa using hp)⟩
  · rintro ⟨hcomp,hpre⟩
    have hsplit := List.dropLast_append_getLast u.transfer.ne_nil
    rw [← hsplit] at hcomp
    have hlast := completed_last (fun v hv => hinfo v (by rw [hsplit] at hv; exact hv)) hpre hcomp
    rw [hsplit] at hlast
    exact hlast.1

theorem saves_of_final {a : Option HxFile} (h : final entryStep a (u.packets.map succeeding) = none) :
    (trace entryStep a (u.packets.map succeeding)).filterMap (fun x => x.2.save) =
      [((opened a u.info).fullPath,(collecting a u.info u.packets).assembled)] := by
  obtain ⟨hcomp,hpre⟩ := (u.final_eq_none_iff a).mp h
  have hsplit := List.dropLast_append_getLast u.transfer.ne_nil
  rw [← hsplit] at hcomp
  have hlast := completed_last (fun v hv => u.info_of_mem (by rw [hsplit] at hv; exact hv)) hpre hcomp
  rw [hsplit] at hlast
  exact hlast.2

theorem uploadKey_of_mem {e : Upload} (he : e ∈ u.packets.map succeeding) : uploadKey e = u.fileName := by
  obtain ⟨w,hw,rfl⟩ := List.mem_map.mp he
  exact congrArg FileInfo.fileName (u.info_of_mem hw)

end FullUpload

/-- After the upload its content is on disk and nothing is pending for its file name. -/
structure Wins (s : Server) (u : FullUpload) : Prop where
  files : (s.run (u.packets.map succeeding)).disk.files u.info.place = some u.content
  filesReceiver : u.fileName ∉ (s.run (u.packets.map succeeding)).filesReceiver

/-- When the entry `f` left over under the file name of `u` does no harm. -/
structure Harmless (u : FullUpload) (s : Server) (f : HxFile) : Prop where
  /-- Together with what is left over, no packet before the last fills the entry. -/
  waits : u.chunks.length = 1 ∨ (f.filePackets.keys ∪ (numbers u.packets.dropLast).toFinset).card <
    sizeOfInt (opened (some f) u.info).filePacketTotal
  /-- The last one does. -/
  fills : sizeOfInt (opened (some f) u.info).filePacketTotal ≤
    (f.filePackets.keys ∪ (numbers u.packets).toFinset).card
  path_utf8 : ValidUtf8 (opened (some f) u.info).fullPath
  /-- Its total cuts no content off and lets no packet left over in; or it stands for another file, to which
  the content goes, while the file of this upload is there already. -/
  place : if fileAt (opened (some f) u.info).fullPath = u.info.place then
      (∀ i < u.chunks.length, (opened (some f) u.info).filePacketTotal.toInt ≤ i → u.chunk i = []) ∧
      ∀ m : Int32, u.chunks.length ≤ m.toInt → m.toInt < (opened (some f) u.info).filePacketTotal.toInt →
        entryOr f.filePackets m = []
    else s.disk.files u.info.place = some u.content

/-- Nothing is left over under the file name, or nothing that does harm. -/
def Unobstructed (s : Server) (u : FullUpload) : Prop :=
  ∀ f, s.filesReceiver.lookup u.fileName = some f → Harmless u s f

/-- An upload wins exactly when the entry it meets is removed by its last packet, and the bytes saved
then, or else those already on disk, are its content. -/
theorem wins_iff_entry (s : Server) (u : FullUpload) : Wins s u ↔
    final entryStep (s.filesReceiver.lookup u.fileName) (u.packets.map succeeding) = none ∧
    if fileAt (opened (s.filesReceiver.lookup u.fileName) u.info).fullPath = u.info.place then
      (collecting (s.filesReceiver.lookup u.fileName) u.info u.packets).assembled = u.content
    else s.disk.files u.info.place = some u.content := by
  have hk : ∀ e ∈ u.packets.map succeeding, uploadKey e = u.fileName := fun e he => u.uploadKey_of_mem he
  have hlookup := run_lookup s (u.packets.map succeeding) u.fileName
  rw [packetsOf_eq_self hk] at hlookup
  have hfiles := run_files s (u.packets.map succeeding) u.info.place
  rw [writesTo_eq,receipts_eq_trace s hk] at hfiles
  have hreceiver : u.fileName ∉ (s.run (u.packets.map succeeding)).filesReceiver ↔
      final entryStep (s.filesReceiver.lookup u.fileName) (u.packets.map succeeding) = none := by
    rw [← Finmap.lookup_eq_none,hlookup]
  constructor
  · rintro ⟨hdisk,hnone⟩
    have hfinal := hreceiver.mp hnone
    rw [u.saves_of_final hfinal,hdisk] at hfiles
    refine ⟨hfinal,?_⟩
    split
    · rename_i hpath
      simpa [hpath,eq_comm] using hfiles
    · rename_i hpath
      simpa [hpath,eq_comm] using hfiles
  · rintro ⟨hfinal,hplace⟩
    rw [u.saves_of_final hfinal] at hfiles
    refine ⟨hfiles.trans ?_,hreceiver.mpr hfinal⟩
    split at hplace
    · rename_i hpath
      simp [hpath,hplace]
    · rename_i hpath
      simp [hpath,hplace]

theorem completes_last_iff (u : FullUpload) (f : HxFile) :
    final entryStep (some f) (u.packets.map succeeding) = none ↔
      (u.chunks.length = 1 ∨ (f.filePackets.keys ∪ (numbers u.packets.dropLast).toFinset).card <
        sizeOfInt (opened (some f) u.info).filePacketTotal) ∧
      sizeOfInt (opened (some f) u.info).filePacketTotal ≤
        (f.filePackets.keys ∪ (numbers u.packets).toFinset).card ∧
      ValidUtf8 (opened (some f) u.info).fullPath := by
  have hfull : ∀ ws : List File, (collecting (some f) u.info ws).Full ↔
      sizeOfInt (opened (some f) u.info).filePacketTotal ≤ (f.filePackets.keys ∪ (numbers ws).toFinset).card := by
    intro ws
    rw [HxFile.Full,collecting_filePackets,keys_storeAll]
    rfl
  have hone : u.packets.dropLast = [] ↔ u.chunks.length = 1 := by
    have hpos := List.length_pos_of_ne_nil u.chunks_ne_nil
    rw [← List.length_eq_zero_iff,List.length_dropLast,u.length_packets]
    omega
  rw [u.final_eq_none_iff,HxFile.Completes,hfull]
  constructor
  · rintro ⟨⟨hfills,hvalid⟩,hwaits⟩
    refine ⟨?_,hfills,hvalid⟩
    by_cases hnil : u.packets.dropLast = []
    · exact Or.inl (hone.mp hnil)
    · right
      have hnot := hwaits u.packets.dropLast [] (by simp) hnil
      rw [HxFile.Completes,hfull] at hnot
      exact Nat.not_le.mp (fun h => hnot ⟨h,hvalid⟩)
  · rintro ⟨hwaits,hfills,hvalid⟩
    refine ⟨⟨hfills,hvalid⟩,fun pre post hsplit hne hcomp => ?_⟩
    have hlast := Full_mono post hcomp.1
    rw [← hsplit,hfull] at hlast
    rcases hwaits with hlen | hlt
    · rw [hone.mpr hlen] at hsplit
      exact hne (List.append_eq_nil_iff.mp hsplit.symm).1
    · exact absurd hlast (Nat.not_le.mpr hlt)

/-- After any history a full upload wins exactly when nothing left over obstructs it. -/
theorem full_upload_wins_iff (d : Disk) (es : List Upload) (u : FullUpload) :
    Wins ((Server.fresh d).run es) u ↔ Unobstructed ((Server.fresh d).run es) u := by
  rw [wins_iff_entry]
  unfold Unobstructed
  cases hl : ((Server.fresh d).run es).filesReceiver.lookup u.fileName with
  | none =>
    have hall : (collecting none u.info u.packets).assembled = u.content := u.bytes_eq
    have hplace : fileAt (opened none u.info).fullPath = u.info.place := by
      rw [opened_none]
      rfl
    simp [u.transfer.completed.1,hplace,hall]
  | some f =>
    rw [completes_last_iff,u.assembled_eq_content_iff]
    constructor
    · rintro ⟨⟨hwaits,hfills,hvalid⟩,hplace⟩ g hg
      obtain rfl := Option.some.inj hg
      exact ⟨hwaits,hfills,hvalid,hplace⟩
    · intro h
      obtain ⟨hwaits,hfills,hvalid,hplace⟩ := h f rfl
      exact ⟨⟨hwaits,hfills,hvalid⟩,hplace⟩

def abandonedPacket : Upload :=
  ({ mapName := utf8 "m", fileName := utf8 "f", fileContent := [1], filePacketTotal := 3 },{})

def twoChunks (mapName : Bytes) (valid : ValidUtf8 mapName) (first second : Bytes) : FullUpload where
  mapName := mapName
  fileName := utf8 "f"
  wholeFileMd5 := []
  chunks := [first,second]
  chunks_ne_nil := List.cons_ne_nil _ _
  length_lt := (by decide : 2 < 2 ^ 31)
  mapName_utf8 := valid
  fileName_utf8 := by decide

def secondUpload : FullUpload := twoChunks (utf8 "m") (by decide) [2] [3]

theorem abandoned_upload_obstructs : ¬ ∀ (d : Disk) (es : List Upload) (u : FullUpload),
    Wins ((Server.fresh d).run es) u := by
  intro h
  exact absurd (h .blank [abandonedPacket] secondUpload).filesReceiver (by decide +kernel)

end FDemo.MapServer
