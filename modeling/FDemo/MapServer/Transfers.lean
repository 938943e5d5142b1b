import FDemo.MapServer.Collecting
import FDemo.MapServer.History

/-! # Several files at once

Where the packets of every file name are all packets of one file, the files do
not meet: each name has its own entry, and different names have different paths.
However the packets are ordered, each file is saved with its own last packet.
-/
namespace FDemo.MapServer
open Packet Mealy

def named (k : Bytes) (ws : List File) : List File := ws.filter fun w => decide (w.fileName = k)

theorem packetsOf_succeeding (k : Bytes) (ws : List File) :
    packetsOf k (ws.map succeeding) = (named k ws).map succeeding := by
  simp only [packetsOf,named,List.filter_map]
  rfl

/-- The packets of every name are a transfer, and those that go to one file have the same bytes. -/
structure Transfers (info : Bytes → FileInfo) (ws : List File) : Prop where
  transfer : ∀ w ∈ ws, Transfer (info w.fileName) (named w.fileName ws)
  bytes_eq : ∀ v ∈ ws, ∀ w ∈ ws, (info v.fileName).place = (info w.fileName).place →
    Transfer.bytes (info v.fileName) (named v.fileName ws) = Transfer.bytes (info w.fileName) (named w.fileName ws)

namespace Transfers
variable {info : Bytes → FileInfo} {ws : List File} (h : Transfers info ws)
include h

theorem filesReceiver_eq (d : Disk) : ((Server.fresh d).run (ws.map succeeding)).filesReceiver = ∅ := by
  apply Finmap.ext_lookup
  intro k
  rw [run_lookup,packetsOf_succeeding,Server.fresh,Finmap.lookup_empty]
  by_cases hnil : named k ws = []
  · rw [hnil]
    rfl
  · obtain ⟨w,hw⟩ := List.exists_mem_of_ne_nil _ hnil
    obtain ⟨hmem,hkey⟩ := List.mem_filter.mp hw
    obtain rfl : w.fileName = k := by simpa using hkey
    exact (h.transfer w hmem).completed.1

theorem saves (d : Disk) {w : File} (hw : w ∈ ws) :
    (receiptsOf w.fileName ((Server.fresh d).receipts (ws.map succeeding))).filterMap (fun x => x.2.save) =
      [((info w.fileName).fullPath,Transfer.bytes (info w.fileName) (named w.fileName ws))] := by
  rw [receiptsOf_receipts,packetsOf_succeeding,Server.fresh,Finmap.lookup_empty]
  exact (h.transfer w hw).completed.2

/-- A save is that of the file its packet names. -/
theorem eq_of_save (d : Disk) {x : Upload × Receipt} (hx : x ∈ (Server.fresh d).receipts (ws.map succeeding))
    {y : Bytes × Bytes} (hsave : x.2.save = some y) :
    ∃ v ∈ ws, y = ((info v.fileName).fullPath,Transfer.bytes (info v.fileName) (named v.fileName ws)) := by
  obtain ⟨v,hv,hvx⟩ := List.mem_map.mp (fst_mem_of_mem_receipts hx)
  have hkey : uploadKey x.1 = v.fileName := by rw [← hvx]; rfl
  have hmem : y ∈ [((info v.fileName).fullPath,Transfer.bytes (info v.fileName) (named v.fileName ws))] := by
    rw [← h.saves d hv]
    exact List.mem_filterMap.mpr ⟨x,List.mem_filter.mpr ⟨hx,by simpa using hkey⟩,hsave⟩
  exact ⟨v,hv,List.mem_singleton.mp hmem⟩

theorem files_eq (d : Disk) {w : File} (hw : w ∈ ws) :
    ((Server.fresh d).run (ws.map succeeding)).disk.files (info w.fileName).place =
      some (Transfer.bytes (info w.fileName) (named w.fileName ws)) := by
  refine files_of_writesTo (fun bytes hbytes => ?_) ?_
  · obtain ⟨x,hx,hsaved⟩ := List.mem_filterMap.mp hbytes
    rw [savedAt_eq] at hsaved
    obtain ⟨y,hsave,hy⟩ := Option.bind_eq_some_iff.mp hsaved
    obtain ⟨v,hv,rfl⟩ := h.eq_of_save d hx hsave
    split at hy
    · next hplace => exact (Option.some.inj hy).symm.trans (h.bytes_eq v hv w hw hplace)
    · exact absurd hy.symm (Option.some_ne_none _)
  · have hmem := List.mem_singleton_self ((info w.fileName).fullPath,Transfer.bytes (info w.fileName) (named w.fileName ws))
    rw [← h.saves d hw] at hmem
    obtain ⟨x,hx,hsave⟩ := List.mem_filterMap.mp hmem
    have hsaved : savedAt (info w.fileName).place x.2 = some (Transfer.bytes (info w.fileName) (named w.fileName ws)) := by
      rw [savedAt_eq,hsave]
      exact if_pos rfl
    exact List.ne_nil_of_mem (List.mem_filterMap.mpr ⟨x,(List.mem_filter.mp hx).1,hsaved⟩)

/-- Every file that the run changes is one of these. -/
theorem files_eq_or (d : Disk) (p : Place) : ((Server.fresh d).run (ws.map succeeding)).disk.files p = d.files p ∨
    ∃ w ∈ ws, (info w.fileName).place = p := by
  rw [run_files]
  cases hlast : (writesTo p ((Server.fresh d).receipts (ws.map succeeding))).getLast? with
  | none => exact Or.inl rfl
  | some bytes =>
    obtain ⟨x,hx,hsaved⟩ := List.mem_filterMap.mp (List.mem_of_getLast? hlast)
    rw [savedAt_eq] at hsaved
    obtain ⟨y,hsave,hy⟩ := Option.bind_eq_some_iff.mp hsaved
    obtain ⟨v,hv,rfl⟩ := h.eq_of_save d hx hsave
    split at hy
    · next hplace => exact Or.inr ⟨v,hv,hplace⟩
    · exact absurd hy.symm (Option.some_ne_none _)

theorem outcome (d : Disk) {pre post : List File} {w : File} (hws : ws = pre ++ w :: post) :
    (((Server.fresh d).run (pre.map succeeding)).upload (succeeding w)).2 =
      if named w.fileName post = [] then
        .saved (info w.fileName).fullPath (Transfer.bytes (info w.fileName) (named w.fileName ws))
      else .waiting := by
  have hsplit : named w.fileName ws = named w.fileName pre ++ w :: named w.fileName post := by
    simp [named,hws,List.filter_append]
  have hkey : uploadKey (succeeding w) = w.fileName := rfl
  rw [upload_eq,hkey,run_lookup,packetsOf_succeeding,Server.fresh,Finmap.lookup_empty]
  exact (h.transfer w (by simp [hws])).outcome hsplit

end Transfers
end FDemo.MapServer
