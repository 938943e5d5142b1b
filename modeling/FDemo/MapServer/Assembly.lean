import FDemo.MapServer.HxFile

/-! # What one `receive` does

`receive` first stores the packet; everything after that is a function of the
stored entry and of the operating system's answers. The written bytes are the
packets `0..total-1` in order, cut off at the first write that is not taken
whole.
-/
namespace FDemo.MapServer
open Packet

theorem entryOr_subscript (m : PacketMap) (i k : Int32) : entryOr (subscript m i) k = entryOr m k := by
  unfold subscript
  split
  · rfl
  · rename_i hi
    by_cases hk : k = i
    · subst hk
      simp [entryOr,Finmap.lookup_eq_none.mpr hi]
    · simp [entryOr,Finmap.lookup_insert_of_ne m hk]

/-- The writes of one save: what each is asked to write and what is taken of it. -/
abbrev Writes := List (Option ℕ × Bytes)

def Ofstream.writeAll (s : Ofstream) (ws : Writes) : Ofstream := ws.foldl (fun s w => s.write w.1 w.2) s

def Short (w : Option ℕ × Bytes) : Prop := ∃ k, w.1 = some k ∧ k < w.2.length

theorem Ofstream.write_whole {s : Ofstream} (hs : s.good = true) {w : Option ℕ × Bytes} (hw : ¬ Short w) :
    s.write w.1 w.2 = ⟨true,s.written ++ w.2⟩ := by
  obtain ⟨accept,data⟩ := w
  cases accept with
  | none => simp [write,hs]
  | some k =>
    have hk : data.length ≤ k := by
      by_contra h
      exact hw ⟨k,rfl,by simpa using h⟩
    simp [write,hs,hk,List.take_of_length_le hk]

theorem Ofstream.writeAll_bad {s : Ofstream} (hs : s.good = false) (ws : Writes) : s.writeAll ws = s := by
  induction ws with
  | nil => rfl
  | cons w ws ih =>
    have hw : s.write w.1 w.2 = s := by simp [write,hs]
    simpa only [writeAll,List.foldl_cons,hw] using ih

theorem Ofstream.writeAll_whole {s : Ofstream} (hs : s.good = true) {ws : Writes} (hw : ∀ w ∈ ws, ¬ Short w) :
    s.writeAll ws = ⟨true,s.written ++ ws.flatMap Prod.snd⟩ := by
  induction ws generalizing s with
  | nil =>
    obtain ⟨good,written⟩ := s
    simp_all [writeAll]
  | cons w ws ih =>
    have hfirst := write_whole hs (hw w List.mem_cons_self)
    have hrest := ih (s := ⟨true,s.written ++ w.2⟩) rfl (fun v hv => hw v (List.mem_cons_of_mem w hv))
    simpa only [writeAll,List.foldl_cons,hfirst,List.flatMap_cons,List.append_assoc] using hrest

/-- The first write that falls short is the last one that writes anything. -/
theorem Ofstream.length_writeAll_short {s : Ofstream} (hs : s.good = true) {ws : Writes}
    (hw : ∃ w ∈ ws, Short w) :
    (s.writeAll ws).written.length < (s.written ++ ws.flatMap Prod.snd).length := by
  induction ws generalizing s with
  | nil => simp at hw
  | cons w ws ih =>
    by_cases hshort : Short w
    · obtain ⟨k,hk,hlt⟩ := hshort
      have hbad : s.write w.1 w.2 = ⟨false,s.written ++ w.2.take k⟩ := by
        simp [write,hs,hk,Nat.not_le.mpr hlt]
      have hrest := writeAll_bad (s := ⟨false,s.written ++ w.2.take k⟩) rfl ws
      simp only [writeAll,List.foldl_cons,hbad] at hrest ⊢
      rw [hrest]
      simp only [List.length_append,List.length_take,List.flatMap_cons]
      omega
    · have hfirst := write_whole hs hshort
      have htail : ∃ v ∈ ws, Short v := by
        obtain ⟨v,hv,hvs⟩ := hw
        rcases List.mem_cons.mp hv with rfl | hv
        · exact absurd hvs hshort
        · exact ⟨v,hv,hvs⟩
      have hrest := ih (s := ⟨true,s.written ++ w.2⟩) rfl htail
      simpa only [writeAll,List.foldl_cons,hfirst,List.flatMap_cons,List.append_assoc] using hrest

namespace HxFile

/-- The numbers that the write loop visits. -/
def loopNumbers (f : HxFile) : List Int32 := (List.range f.filePacketTotal.toInt.toNat).map Int32.ofNat

theorem mem_loopNumbers {f : HxFile} {k : Int32} :
    k ∈ f.loopNumbers ↔ 0 ≤ k.toInt ∧ k.toInt < f.filePacketTotal.toInt := by
  constructor
  · intro hk
    obtain ⟨i,hi,rfl⟩ := List.mem_map.mp hk
    have hlt : (i : ℤ) < f.filePacketTotal.toInt := by
      have := List.mem_range.mp hi
      omega
    rw [toInt_ofNat_of_lt_toInt hlt]
    omega
  · rintro ⟨h0,hlt⟩
    refine List.mem_map.mpr ⟨k.toInt.toNat,List.mem_range.mpr (by omega),?_⟩
    apply Int32.toInt_inj.mp
    rw [toInt_ofNat_of_lt_toInt (n := f.filePacketTotal) (by omega)]
    omega

theorem pairwise_loopNumbers (f : HxFile) : f.loopNumbers.Pairwise (· < ·) := by
  refine List.pairwise_map.mpr (List.Pairwise.imp_of_mem ?_ List.pairwise_lt_range)
  intro i j _ hj hij
  have hlt : (j : ℤ) < f.filePacketTotal.toInt := by
    have := List.mem_range.mp hj
    omega
  rw [Int32.lt_iff_toInt_lt,toInt_ofNat_of_lt_toInt hlt,
    toInt_ofNat_of_lt_toInt (n := f.filePacketTotal) (i := i) (by omega)]
  exact_mod_cast hij

/-- The packets `0..total-1` in order, a missing one counting as empty. -/
def assembled (f : HxFile) : Bytes := f.loopNumbers.flatMap (entryOr f.filePackets)

def writes (f : HxFile) (ops : SaveOps) : Writes :=
  (List.range f.filePacketTotal.toInt.toNat).map fun i =>
    (ops.accept i,entryOr f.filePackets (Int32.ofNat i))

theorem flatMap_writes (f : HxFile) (ops : SaveOps) : (f.writes ops).flatMap Prod.snd = f.assembled := by
  simp only [writes,assembled,loopNumbers,List.flatMap_map]

/-- Inserting missing numbers does not change what is written. -/
theorem writePackets_eq (f : HxFile) (ops : SaveOps) :
    (f.writePackets ops).2 = Ofstream.writeAll {} (f.writes ops) := by
  have hloop : ∀ (is : List ℕ) (m : PacketMap) (s : Ofstream),
      (∀ k, entryOr m k = entryOr f.filePackets k) →
      (is.foldl (writePacket ops) (m,s)).2 =
        s.writeAll (is.map fun i => (ops.accept i,entryOr f.filePackets (Int32.ofNat i))) := by
    intro is
    induction is with
    | nil => exact fun _ _ _ => rfl
    | cons i is ih =>
      intro m s hm
      have hm' : ∀ k, entryOr (subscript m (Int32.ofNat i)) k = entryOr f.filePackets k :=
        fun k => (entryOr_subscript m _ k).trans (hm k)
      simp only [List.foldl_cons,writePacket,hm',List.map_cons,Ofstream.writeAll]
      exact ih _ _ hm'
  exact hloop _ _ _ (fun _ => rfl)

theorem written_whole {f : HxFile} {ops : SaveOps} (h : ∀ w ∈ f.writes ops, ¬ Short w) :
    (f.writePackets ops).2.written = f.assembled := by
  rw [writePackets_eq,Ofstream.writeAll_whole rfl h,flatMap_writes]
  rfl

theorem written_short {f : HxFile} {ops : SaveOps} (h : ∃ w ∈ f.writes ops, Short w) :
    (f.writePackets ops).2.written.length < f.assembled.length := by
  have hlt := Ofstream.length_writeAll_short (s := {}) rfl h
  rw [flatMap_writes] at hlt
  rw [writePackets_eq]
  exact hlt

def stored (f : HxFile) (packetNum : Int32) (content : Bytes) : HxFile :=
  { f with filePackets := f.filePackets.insert packetNum content }

/-- Enough packets are stored to start a save. -/
def Full (f : HxFile) : Prop := sizeOfInt f.filePacketTotal ≤ f.filePackets.keys.card

instance (f : HxFile) : Decidable f.Full := inferInstanceAs (Decidable (_ ≤ _))

def outcome (f : HxFile) (ops : SaveOps) : Receipt :=
  if ¬ f.Full then .waiting
  else if ¬ ValidUtf8 f.fullPath then .threw
  else if ops.openWrite then .saved f.fullPath (f.writePackets ops).2.written
  else .openFailed

def settled (f : HxFile) (ops : SaveOps) : HxFile :=
  if (f.outcome ops).done then { f with filePackets := ∅ } else f

def settledDisk (f : HxFile) (ops : SaveOps) (d : Disk) : Disk :=
  match f.outcome ops with
  | .waiting => d
  | .threw => f.ensureDirectoryExists ops d
  | .openFailed => f.ensureDirectoryExists ops d
  | .saved path bytes =>
    let d := f.ensureDirectoryExists ops d
    { d with files := Function.update d.files (fileAt path) (some bytes) }

theorem receive_eq (f : HxFile) (packetNum : Int32) (content : Bytes) (ops : SaveOps) (d : Disk) :
    f.receive packetNum content ops d =
      ((f.stored packetNum content).settled ops,(f.stored packetNum content).settledDisk ops d,
        (f.stored packetNum content).outcome ops) := by
  change (if (f.stored packetNum content).filePackets.keys.card < sizeOfInt (f.stored packetNum content).filePacketTotal
    then (f.stored packetNum content,d,Receipt.waiting)
    else (f.stored packetNum content).assembleAndSaveFile ops
      ((f.stored packetNum content).ensureDirectoryExists ops d)) = _
  generalize f.stored packetNum content = g
  by_cases hfull : g.Full
  · rw [if_neg (Nat.not_lt.mpr hfull)]
    unfold assembleAndSaveFile settled settledDisk outcome
    by_cases hvalid : ValidUtf8 g.fullPath
    · cases hopen : ops.openWrite <;> simp [hfull,hvalid,Receipt.done]
    · simp [hfull,hvalid,Receipt.done]
  · have hlt : g.filePackets.keys.card < sizeOfInt g.filePacketTotal := Nat.not_le.mp hfull
    rw [if_pos hlt]
    simp [settled,settledDisk,outcome,hfull,Receipt.done]

@[simp] theorem ensureDirectoryExists_files (f : HxFile) (ops : SaveOps) (d : Disk) :
    (f.ensureDirectoryExists ops d).files = d.files := by
  unfold ensureDirectoryExists
  split
  · rfl
  · split <;> rfl

@[simp] theorem stored_fileName (f : HxFile) (n : Int32) (c : Bytes) : (f.stored n c).fileName = f.fileName := rfl
@[simp] theorem stored_mapName (f : HxFile) (n : Int32) (c : Bytes) : (f.stored n c).mapName = f.mapName := rfl
@[simp] theorem stored_total (f : HxFile) (n : Int32) (c : Bytes) :
    (f.stored n c).filePacketTotal = f.filePacketTotal := rfl
@[simp] theorem stored_md5 (f : HxFile) (n : Int32) (c : Bytes) :
    (f.stored n c).fileWholeMd5 = f.fileWholeMd5 := rfl
@[simp] theorem stored_fullPath (f : HxFile) (n : Int32) (c : Bytes) : (f.stored n c).fullPath = f.fullPath := rfl
@[simp] theorem stored_filePackets (f : HxFile) (n : Int32) (c : Bytes) :
    (f.stored n c).filePackets = f.filePackets.insert n c := rfl

theorem setFileInfo_of_ne {f : HxFile} (h : f.fileName ≠ []) (mapName fileName : Bytes) (total : Int32)
    (md5 : Bytes) : f.setFileInfo mapName fileName total md5 = f := if_pos h

theorem setFileInfo_of_eq {f : HxFile} (h : f.fileName = []) (mapName fileName : Bytes) (total : Int32)
    (md5 : Bytes) : f.setFileInfo mapName fileName total md5 =
      { f with mapName := mapName, fileName := fileName, filePacketTotal := total, fileWholeMd5 := md5 } :=
  if_neg (by simpa using h)

@[simp] theorem setFileInfo_filePackets (f : HxFile) (mapName fileName : Bytes) (total : Int32) (md5 : Bytes) :
    (f.setFileInfo mapName fileName total md5).filePackets = f.filePackets := by
  unfold setFileInfo
  split <;> rfl

theorem setFileInfo_setFileInfo (f : HxFile) (mapName fileName : Bytes) (total : Int32) (md5 : Bytes) :
    (f.setFileInfo mapName fileName total md5).setFileInfo mapName fileName total md5 =
      f.setFileInfo mapName fileName total md5 := by
  by_cases hf : f.fileName = []
  · rw [setFileInfo_of_eq hf]
    by_cases hname : fileName = []
    · exact setFileInfo_of_eq hname ..
    · exact setFileInfo_of_ne hname ..
  · rw [setFileInfo_of_ne hf,setFileInfo_of_ne hf]

theorem outcome_done {f : HxFile} {ops : SaveOps} (h : (f.outcome ops).done = true) :
    f.Full ∧ ValidUtf8 f.fullPath ∧ ops.openWrite = true ∧
      f.outcome ops = .saved f.fullPath (f.writePackets ops).2.written := by
  unfold outcome at h ⊢
  by_cases hfull : f.Full
  · by_cases hvalid : ValidUtf8 f.fullPath
    · cases hopen : ops.openWrite <;> simp_all [Receipt.done]
    · simp [hfull,hvalid,Receipt.done] at h
  · simp [hfull,Receipt.done] at h

theorem outcome_waiting_iff {f : HxFile} {ops : SaveOps} : f.outcome ops = .waiting ↔ ¬ f.Full := by
  unfold outcome
  by_cases hfull : f.Full
  · by_cases hvalid : ValidUtf8 f.fullPath
    · cases hopen : ops.openWrite <;> simp [hfull,hvalid]
    · simp [hfull,hvalid]
  · simp [hfull]

theorem outcome_saved {f : HxFile} {ops : SaveOps} (hfull : f.Full) (hvalid : ValidUtf8 f.fullPath)
    (hopen : ops.openWrite = true) : f.outcome ops = .saved f.fullPath (f.writePackets ops).2.written := by
  simp [outcome,hfull,hvalid,hopen]

end HxFile
end FDemo.MapServer
