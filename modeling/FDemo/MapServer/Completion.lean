import FDemo.MapServer.Collecting
import FDemo.MapServer.History

/-! # When a completed file is whole

Completion compares a count of packet numbers with the announced total, while
assembly reads the numbers `0..total-1`. A completed file holds all that was
received exactly when the stored numbers cover the announced ones and nothing
outside them carries content.
-/
namespace FDemo.MapServer
open Packet Mealy

def received (h : History) : PacketMap := storeAll ∅ (h.map fun x => x.1.1)

theorem received_concat (h : History) (x : Upload × Receipt) :
    received (h ++ [x]) = (received h).insert x.1.1.filePacketNum x.1.1.fileContent := by
  simp [received]

theorem lookup_received (h : History) (n : Int32) : (received h).lookup n = latest h n := by
  induction h using List.reverseRecOn with
  | nil => exact Finmap.lookup_empty n
  | append_singleton h x ih =>
    rw [received_concat,latest_concat]
    split
    · rename_i hn
      rw [hn,Finmap.lookup_insert]
    · rename_i hn
      rw [Finmap.lookup_insert_of_ne _ (Ne.symm hn),ih]

theorem mem_received {h : History} {n : Int32} (hn : n ∈ received h) : ∃ x ∈ h, x.1.1.filePacketNum = n := by
  rw [← Finmap.mem_keys,received,keys_storeAll] at hn
  simpa [numbers] using hn

/-- A number among `0..total-1`. -/
def Announced (total n : Int32) : Prop := 0 ≤ n.toInt ∧ n.toInt < total.toInt

instance (total n : Int32) : Decidable (Announced total n) := inferInstanceAs (Decidable (_ ∧ _))

/-- What a file reported as complete owes to the packets collected for it. -/
structure SoundCompletion (h : History) (total : Int32) (bytes : Bytes) : Prop where
  bytes_eq : bytes = concat (received h)
  no_gap : (∃ n, Announced total n ∧ n ∉ received h) → ∀ n, entryOr (received h) n = []

namespace HxFile

/-- Nothing carries content, or every announced number is stored and no other carries content. -/
def Covered (f : HxFile) : Prop :=
  (∀ n, entryOr f.filePackets n = []) ∨
    (∀ n, Announced f.filePacketTotal n → n ∈ f.filePackets) ∧
    ∀ n, ¬ Announced f.filePacketTotal n → entryOr f.filePackets n = []

theorem assembled_eq_concat_iff {f : HxFile} : f.assembled = concat f.filePackets ↔
    ∀ n, ¬ Announced f.filePacketTotal n → entryOr f.filePackets n = [] := by
  have hread := flatMap_eq_iff_support (entryOr f.filePackets) (pairwise_loopNumbers f)
    f.filePackets.keys.sortedLT_sort.pairwise
    (fun k _ hk => (Finset.mem_sort _).mpr (Finmap.mem_keys.mpr (mem_of_entryOr_ne_nil hk)))
  refine hread.trans ⟨fun h n hn => ?_,fun h n _ hne => ?_⟩
  · by_contra hne
    have hkey := (Finset.mem_sort (· ≤ ·)).mpr (Finmap.mem_keys.mpr (mem_of_entryOr_ne_nil hne))
    exact hn (mem_loopNumbers.mp (h n hkey hne))
  · by_contra hn
    exact hne (h n (fun ha => hn (mem_loopNumbers.mpr ha)))

/-- The assembled file is sound exactly when the entry is covered. -/
theorem covered_iff_sound {f : HxFile} {h : History} (hp : f.filePackets = received h) :
    f.Covered ↔ SoundCompletion h f.filePacketTotal f.assembled := by
  constructor
  · rintro (hempty | ⟨hall,hout⟩)
    · refine ⟨hp ▸ assembled_eq_concat_iff.mpr (fun n _ => hempty n),fun _ n => hp ▸ hempty n⟩
    · refine ⟨hp ▸ assembled_eq_concat_iff.mpr hout,fun ⟨n,ha,hn⟩ => ?_⟩
      exact absurd (hall n ha) (hp ▸ hn)
  · intro hs
    have hout := assembled_eq_concat_iff.mp (hs.bytes_eq.trans (congrArg concat hp.symm))
    by_cases hgap : ∃ n, Announced f.filePacketTotal n ∧ n ∉ f.filePackets
    · exact Or.inl (fun n => hp ▸ hs.no_gap (hp ▸ hgap) n)
    · push Not at hgap
      exact Or.inr ⟨hgap,hout⟩

theorem covered_of_announced {f : HxFile} (hfull : f.Full)
    (h : ∀ n ∈ f.filePackets, Announced f.filePacketTotal n) : f.Covered := by
  refine Or.inr ⟨?_,fun n hn => ?_⟩
  · intro n hn
    have hnonneg : 0 ≤ f.filePacketTotal.toInt := by
      obtain ⟨h0,hlt⟩ := hn
      omega
    have hsub : f.filePackets.keys ⊆ f.loopNumbers.toFinset := by
      intro m hm
      exact List.mem_toFinset.mpr (mem_loopNumbers.mpr (h m (Finmap.mem_keys.mp hm)))
    have hcard : f.loopNumbers.toFinset.card ≤ f.filePackets.keys.card := by
      rw [List.toFinset_card_of_nodup ((pairwise_loopNumbers f).imp ne_of_lt)]
      have hlen : f.loopNumbers.length = f.filePacketTotal.toInt.toNat := by simp [loopNumbers]
      rw [hlen,← sizeOfInt_of_nonneg hnonneg]
      exact hfull
    rw [← Finmap.mem_keys,Finset.eq_of_subset_of_card_le hsub hcard]
    exact List.mem_toFinset.mpr (mem_loopNumbers.mpr hn)
  · by_contra hne
    exact hn (h n (mem_of_entryOr_ne_nil hne))

end HxFile

/-- Every file that a run reports as complete is sound. -/
def CompletionsSound (s : Server) (es : List Upload) : Prop :=
  ∀ pre e post path bytes, es = pre ++ e :: post → ((s.run pre).upload e).2 = .saved path bytes →
    SoundCompletion (sinceCreation (uploadKey e) (s.receipts pre) ++ [(e,.saved path bytes)])
      ((s.run pre).storing e).filePacketTotal bytes

/-- Every entry that a packet completes is covered. -/
def CompletionsCovered (s : Server) (es : List Upload) : Prop :=
  ∀ pre e post, es = pre ++ e :: post → ((s.run pre).storing e).Completes → ((s.run pre).storing e).Covered

theorem storing_filePackets (d : Disk) (es : List Upload) (e : Upload) (r : Receipt) :
    (((Server.fresh d).run es).storing e).filePackets =
      received (sinceCreation (uploadKey e) ((Server.fresh d).receipts es) ++ [(e,r)]) := by
  have hr := reflects_run d es (uploadKey e)
  rw [received_concat]
  unfold Server.storing
  cases hl : ((Server.fresh d).run es).filesReceiver.lookup (uploadKey e) with
  | none =>
    rw [hl] at hr
    have hnil : sinceCreation (uploadKey e) ((Server.fresh d).receipts es) = [] := hr
    rw [hnil]
    simp [storedEntry,received]
  | some f =>
    rw [hl] at hr
    have hf : EntryInvariant (uploadKey e) _ f := hr
    have hpackets : f.filePackets = received (sinceCreation (uploadKey e) ((Server.fresh d).receipts es)) :=
      Finmap.ext_lookup (fun n => (hf.filePackets n).trans (lookup_received _ n).symm)
    simp [storedEntry,hpackets]

theorem storing_total (d : Disk) (es : List Upload) (e : Upload)
    (h : ∀ x ∈ sinceCreation (uploadKey e) ((Server.fresh d).receipts es),
      x.1.1.filePacketTotal = e.1.filePacketTotal) :
    (((Server.fresh d).run es).storing e).filePacketTotal = e.1.filePacketTotal := by
  have hr := reflects_run d es (uploadKey e)
  unfold Server.storing
  cases hl : ((Server.fresh d).run es).filesReceiver.lookup (uploadKey e) with
  | none => rfl
  | some f =>
    rw [hl] at hr
    have hf : EntryInvariant (uploadKey e) _ f := hr
    by_cases hname : f.fileName = []
    · simp [storedEntry,HxFile.setFileInfo_of_eq hname]
    · obtain ⟨p,rest,hcons,-,htotal,-⟩ := hf.info (hf.fileName ▸ hname)
      have hp := h p (by simp [hcons])
      simp [storedEntry,HxFile.setFileInfo_of_ne hname,htotal,hp]

theorem keys_storing_subset (d : Disk) (es : List Upload) (e : Upload) :
    (((Server.fresh d).run es).storing e).filePackets.keys ⊆
      (numbers ((es ++ [e]).map Prod.fst)).toFinset := by
  intro n hn
  rw [storing_filePackets d es e .waiting,Finmap.mem_keys] at hn
  obtain ⟨x,hx,rfl⟩ := mem_received hn
  apply List.mem_toFinset.mpr
  apply List.mem_map_of_mem
  apply List.mem_map_of_mem
  rcases List.mem_append.mp hx with hx | hx
  · exact List.mem_append_left _ (mem_sinceCreation hx).1
  · simp [List.mem_singleton.mp hx]

theorem storing_info (d : Disk) (es : List Upload) (e : Upload) : ∃ x ∈ es ++ [e],
    (((Server.fresh d).run es).storing e).mapName = x.1.mapName ∧
    (((Server.fresh d).run es).storing e).filePacketTotal = x.1.filePacketTotal := by
  have hr := reflects_run d es (uploadKey e)
  unfold Server.storing
  cases hl : ((Server.fresh d).run es).filesReceiver.lookup (uploadKey e) with
  | none => exact ⟨e,by simp,rfl,rfl⟩
  | some f =>
    rw [hl] at hr
    have hf : EntryInvariant (uploadKey e) _ f := hr
    by_cases hname : f.fileName = []
    · refine ⟨e,by simp,?_,?_⟩ <;> simp [storedEntry,HxFile.setFileInfo_of_eq hname]
    · obtain ⟨p,rest,hcons,hmap,htotal,-⟩ := hf.info (hf.fileName ▸ hname)
      have hp : p ∈ sinceCreation (uploadKey e) ((Server.fresh d).receipts es) := by simp [hcons]
      refine ⟨p.1,List.mem_append_left _ (mem_sinceCreation hp).1,?_,?_⟩ <;>
        simp [storedEntry,HxFile.setFileInfo_of_ne hname,hmap,htotal]

theorem storing_fileName (d : Disk) (es : List Upload) (e : Upload) :
    (((Server.fresh d).run es).storing e).fileName = uploadKey e := by
  have hr := reflects_run d es (uploadKey e)
  unfold Server.storing
  cases hl : ((Server.fresh d).run es).filesReceiver.lookup (uploadKey e) with
  | none => rfl
  | some f =>
    rw [hl] at hr
    have hf : EntryInvariant (uploadKey e) _ f := hr
    by_cases hname : f.fileName = []
    · simp [storedEntry,HxFile.setFileInfo_of_eq hname,uploadKey]
    · simp [storedEntry,HxFile.setFileInfo_of_ne hname,hf.fileName]

theorem succeeding_save {files : List File} {pre post : List Upload} {e : Upload}
    (hes : files.map succeeding = pre ++ e :: post) : e.2 = {} := by
  have hmem : e ∈ files.map succeeding := by simp [hes]
  obtain ⟨file,-,rfl⟩ := List.mem_map.mp hmem
  rfl

theorem completions_sound_of_covered {d : Disk} {files : List File}
    (hcovered : CompletionsCovered (.fresh d) (files.map succeeding)) :
    CompletionsSound (.fresh d) (files.map succeeding) := by
  intro pre e post path bytes hes hsaved
  rw [upload_outcome] at hsaved
  obtain ⟨hfull,hvalid,-,-⟩ := HxFile.outcome_done (by rw [hsaved]; rfl)
  rw [succeeding_save hes,succeeding_outcome ⟨hfull,hvalid⟩] at hsaved
  obtain ⟨rfl,rfl⟩ := Receipt.saved.inj hsaved
  exact (HxFile.covered_iff_sound (storing_filePackets d pre e _)).mp (hcovered pre e post hes ⟨hfull,hvalid⟩)

/-- A run with succeeding saves loses nothing it reports as complete exactly when every entry that
fills up is covered. -/
theorem completions_sound_iff_covered (d : Disk) (files : List File) :
    CompletionsSound (.fresh d) (files.map succeeding) ↔ CompletionsCovered (.fresh d) (files.map succeeding) := by
  refine ⟨fun hsound pre e post hes hcompletes => ?_,completions_sound_of_covered⟩
  have hsaved := (upload_outcome ((Server.fresh d).run pre) e).trans
    (succeeding_save hes ▸ succeeding_outcome hcompletes)
  exact (HxFile.covered_iff_sound (storing_filePackets d pre e _)).mpr (hsound pre e post _ _ hes hsaved)

def straySoloPacket : File := { fileName := utf8 "f", fileContent := [1], filePacketNum := 5, filePacketTotal := 1 }

theorem stray_packet_lost : ¬ ∀ (d : Disk) (files : List File),
    CompletionsSound (.fresh d) (files.map succeeding) := by
  intro h
  have hsound := h .blank [straySoloPacket] [] (succeeding straySoloPacket) []
    (mapResPath ++ utf8 "/f") [] rfl (by decide +kernel)
  have hlost := hsound.no_gap ⟨0,by decide +kernel,by decide +kernel⟩ 5
  exact absurd hlost (by decide +kernel)

/-- Uploads that agree on the total of a file and number their packets within it lose nothing. -/
theorem completions_sound_of_announced (d : Disk) (files : List File)
    (hnum : ∀ f ∈ files, Announced f.filePacketTotal f.filePacketNum)
    (htotal : ∀ f ∈ files, ∀ g ∈ files, f.fileName = g.fileName → f.filePacketTotal = g.filePacketTotal) :
    CompletionsSound (.fresh d) (files.map succeeding) := by
  refine completions_sound_of_covered fun pre e post hes ⟨hfull,_⟩ => ?_
  have hfile : ∀ e' ∈ pre ++ e :: post, e'.1 ∈ files := by
    intro e' he'
    rw [← hes] at he'
    obtain ⟨file,hmem,rfl⟩ := List.mem_map.mp he'
    exact hmem
  have he : e.1 ∈ files := hfile e (by simp)
  have hsince : ∀ x ∈ sinceCreation (uploadKey e) ((Server.fresh d).receipts pre),
      x.1.1 ∈ files ∧ x.1.1.filePacketTotal = e.1.filePacketTotal := by
    intro x hx
    obtain ⟨hmem,hkey⟩ := mem_sinceCreation hx
    have hx : x.1.1 ∈ files := hfile x.1 (by simp [hmem])
    exact ⟨hx,htotal _ hx _ he hkey⟩
  have htot : (((Server.fresh d).run pre).storing e).filePacketTotal = e.1.filePacketTotal :=
    storing_total d pre e (fun x hx => (hsince x hx).2)
  refine HxFile.covered_of_announced hfull (fun n hn => ?_)
  rw [storing_filePackets d pre e .waiting] at hn
  rw [htot]
  obtain ⟨x,hx,rfl⟩ := mem_received hn
  rcases List.mem_append.mp hx with hx | hx
  · obtain ⟨hmem,hxt⟩ := hsince x hx
    exact hxt ▸ hnum _ hmem
  · rw [List.mem_singleton.mp hx]
    exact hnum _ he

end FDemo.MapServer
