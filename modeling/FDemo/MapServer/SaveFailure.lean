import FDemo.MapServer.Completion

/-! # Saves that fail

Opening the output file truncates it, and nothing looks at the stream after the
writes. A save is atomic exactly when the file does not open, or every write is
taken whole and only announced numbers carry content.
-/
namespace FDemo.MapServer
open Packet

namespace HxFile

theorem length_assembled_le (f : HxFile) : f.assembled.length ≤ (concat f.filePackets).length :=
  length_flatMap_le_support (entryOr f.filePackets) (pairwise_loopNumbers f)
    f.filePackets.keys.sortedLT_sort.pairwise
    (fun _ _ hk => (Finset.mem_sort _).mpr (Finmap.mem_keys.mpr (mem_of_entryOr_ne_nil hk)))

/-- All packet bytes reach the file exactly when every write is taken whole and nothing lies outside
the announced numbers. -/
theorem written_eq_concat_iff {f : HxFile} {ops : SaveOps} :
    (f.writePackets ops).2.written = concat f.filePackets ↔
      (∀ w ∈ f.writes ops, ¬ Short w) ∧
      ∀ n, ¬ Announced f.filePacketTotal n → entryOr f.filePackets n = [] := by
  by_cases hwhole : ∀ w ∈ f.writes ops, ¬ Short w
  · rw [written_whole hwhole,assembled_eq_concat_iff]
    exact ⟨fun h => ⟨hwhole,h⟩,And.right⟩
  · refine ⟨fun h => ?_,fun h => absurd h.1 hwhole⟩
    have hshort : ∃ w ∈ f.writes ops, Short w := by
      push Not at hwhole
      exact hwhole
    have hlt := written_short hshort
    rw [h] at hlt
    exact absurd (length_assembled_le f) (Nat.not_le.mpr hlt)

end HxFile

/-- What a save owes to the entry that has just become full: without all packet bytes on disk,
`receive` returns false, the entry stays and an old file is untouched; and true means all bytes. -/
structure AtomicSave (s : Server) (e : Upload) : Prop where
  failed : (s.upload e).1.disk.files (fileAt (s.storing e).fullPath) ≠ some (concat (s.storing e).filePackets) →
    (s.upload e).2.returned = some false ∧
    (s.upload e).1.filesReceiver.lookup (uploadKey e) = some (s.storing e) ∧
    ∀ old, s.disk.files (fileAt (s.storing e).fullPath) = some old →
      (s.upload e).1.disk.files (fileAt (s.storing e).fullPath) = some old
  saved : (s.upload e).2.returned = some true →
    (s.upload e).1.disk.files (fileAt (s.storing e).fullPath) = some (concat (s.storing e).filePackets)

/-- The conversion of the path succeeds, and the file does not open, or every write is taken whole
and only announced numbers carry content. Where the conversion throws, the file must already be there. -/
def SaveSafe (s : Server) (e : Upload) : Prop :=
  if ValidUtf8 (s.storing e).fullPath then
    e.2.openWrite = false ∨
      (∀ w ∈ (s.storing e).writes e.2, ¬ Short w) ∧
      ∀ n, ¬ Announced (s.storing e).filePacketTotal n → entryOr (s.storing e).filePackets n = []
  else s.disk.files (fileAt (s.storing e).fullPath) = some (concat (s.storing e).filePackets)

theorem save_atomic_iff (s : Server) (e : Upload) (hfull : (s.storing e).Full) :
    AtomicSave s e ↔ SaveSafe s e := by
  have hfiles := upload_files s e
  have hout := upload_outcome s e
  by_cases hvalid : ValidUtf8 (s.storing e).fullPath
  · simp only [SaveSafe,if_pos hvalid]
    cases hopen : e.2.openWrite with
    | false =>
      have hfail : (s.upload e).2 = .openFailed := by
        rw [hout]
        simp [HxFile.outcome,hfull,hvalid,hopen]
      rw [hfail] at hfiles
      have hstay := upload_lookup_of_not_done (s := s) (e := e) (by rw [hfail]; rfl)
      refine iff_of_true ⟨fun _ => ⟨by rw [hfail]; rfl,hstay,fun old hold => ?_⟩,fun h => ?_⟩ (Or.inl rfl)
      · rw [hfiles]
        exact hold
      · rw [hfail] at h
        simp [Receipt.returned] at h
    | true =>
      have hsaved := hout.trans (HxFile.outcome_saved hfull hvalid hopen)
      rw [hsaved] at hfiles
      have hdisk : (s.upload e).1.disk.files (fileAt (s.storing e).fullPath) =
          some ((s.storing e).writePackets e.2).2.written := by simp [hfiles,saveEffect]
      simp only [Bool.true_eq_false,false_or,← HxFile.written_eq_concat_iff]
      constructor
      · intro h
        exact Option.some.inj (hdisk.symm.trans (h.saved (by rw [hsaved]; rfl)))
      · intro h
        exact ⟨fun hne => absurd (h ▸ hdisk) hne,fun _ => h ▸ hdisk⟩
  · simp only [SaveSafe,if_neg hvalid]
    have hthrew : (s.upload e).2 = .threw := by
      rw [hout]
      simp [HxFile.outcome,hfull,hvalid]
    rw [hthrew] at hfiles
    have hdisk : (s.upload e).1.disk.files (fileAt (s.storing e).fullPath) =
        s.disk.files (fileAt (s.storing e).fullPath) := by
      rw [hfiles]
      rfl
    constructor
    · intro h
      by_contra hne
      have hreturned := (h.failed (by rw [hdisk]; exact hne)).1
      rw [hthrew] at hreturned
      simp [Receipt.returned] at hreturned
    · intro h
      refine ⟨fun hne => absurd (hdisk.trans h) hne,fun hr => ?_⟩
      rw [hthrew] at hr
      simp [Receipt.returned] at hr

def fullDisk : Server :=
  ⟨∅,{ Disk.blank with files := fun p => if p = fileAt (mapResPath ++ utf8 "m/f") then some [9] else none }⟩

def refusedPacket : Upload :=
  ({ mapName := utf8 "m", fileName := utf8 "f", fileContent := [1], filePacketTotal := 1 },
    { accept := fun _ => some 0 })

theorem save_atomic_iff_refused : AtomicSave fullDisk refusedPacket ↔ SaveSafe fullDisk refusedPacket :=
  save_atomic_iff fullDisk refusedPacket (by decide +kernel)

theorem refused_write_reported_saved : ¬ ∀ (s : Server) (e : Upload), (s.storing e).Full → AtomicSave s e := by
  intro h
  have hlost := (h fullDisk refusedPacket (by decide +kernel)).saved (by decide +kernel)
  have hempty : (fullDisk.upload refusedPacket).1.disk.files (fileAt (fullDisk.storing refusedPacket).fullPath) =
      some [] := by decide +kernel
  exact absurd (hempty.symm.trans hlost) (by decide +kernel)

end FDemo.MapServer
