import FDemo.MapServer.Receiver

/-! # Packets of one file, one after the other

Packets that agree on the file info open an entry once and then only add to its
packets. While the entry is not complete, it holds exactly what it held before
together with what has come since; so the first packet that completes it decides
what is saved.
-/
namespace FDemo.MapServer
open Packet Mealy

def storeAll (m : PacketMap) (ws : List File) : PacketMap :=
  ws.foldl (fun m w => m.insert w.filePacketNum w.fileContent) m

@[simp] theorem storeAll_nil (m : PacketMap) : storeAll m [] = m := rfl

@[simp] theorem storeAll_concat (m : PacketMap) (ws : List File) (w : File) :
    storeAll m (ws ++ [w]) = (storeAll m ws).insert w.filePacketNum w.fileContent := by
  simp [storeAll]

def numbers (ws : List File) : List Int32 := ws.map File.filePacketNum

theorem keys_storeAll (m : PacketMap) (ws : List File) :
    (storeAll m ws).keys = m.keys ∪ (numbers ws).toFinset := by
  induction ws using List.reverseRecOn with
  | nil => simp [numbers]
  | append_singleton ws w ih =>
    ext n
    simp only [storeAll_concat,keys_insert,ih,numbers,List.map_append,List.toFinset_append,Finset.mem_insert,
      Finset.mem_union,List.map_cons,List.map_nil,List.mem_toFinset,List.mem_singleton]
    tauto

theorem lookup_storeAll_of_notMem {m : PacketMap} {ws : List File} {n : Int32} (hn : n ∉ numbers ws) :
    (storeAll m ws).lookup n = m.lookup n := by
  induction ws using List.reverseRecOn with
  | nil => rfl
  | append_singleton ws w ih =>
    simp only [numbers,List.map_append,List.map_cons,List.map_nil,List.mem_append,List.mem_singleton,not_or] at hn
    rw [storeAll_concat,Finmap.lookup_insert_of_ne _ hn.2]
    exact ih hn.1

theorem lookup_storeAll_of_mem {m : PacketMap} {ws : List File} (hnodup : (numbers ws).Nodup) {w : File}
    (hw : w ∈ ws) : (storeAll m ws).lookup w.filePacketNum = some w.fileContent := by
  induction ws using List.reverseRecOn with
  | nil => simp at hw
  | append_singleton ws v ih =>
    have hsplit : (numbers ws).Nodup ∧ v.filePacketNum ∉ numbers ws := by
      simpa [numbers,List.nodup_append] using hnodup
    rw [storeAll_concat]
    rcases List.mem_append.mp hw with hmem | hmem
    · have hne : w.filePacketNum ≠ v.filePacketNum := by
        intro heq
        exact hsplit.2 (heq ▸ List.mem_map_of_mem hmem)
      rw [Finmap.lookup_insert_of_ne _ hne]
      exact ih hsplit.1 hmem
    · rw [List.mem_singleton.mp hmem,Finmap.lookup_insert]

/-- What a packet says about its file. -/
structure FileInfo where
  mapName : Bytes
  fileName : Bytes
  filePacketTotal : Int32
  wholeFileMd5 : Bytes
  deriving DecidableEq

def fileInfo (w : File) : FileInfo := ⟨w.mapName,w.fileName,w.filePacketTotal,w.wholeFileMd5⟩

def FileInfo.fullPath (i : FileInfo) : Bytes := mapResPath ++ i.mapName ++ utf8 "/" ++ i.fileName

def FileInfo.place (i : FileInfo) : Place := fileAt i.fullPath

/-- The entry once a packet with this info has been looked up and set. -/
def opened (a : Option HxFile) (i : FileInfo) : HxFile :=
  (a.getD {}).setFileInfo i.mapName i.fileName i.filePacketTotal i.wholeFileMd5

/-- The entry once the packets are stored as well. -/
def collecting (a : Option HxFile) (i : FileInfo) (ws : List File) : HxFile :=
  { opened a i with filePackets := storeAll (a.getD {}).filePackets ws }

@[simp] theorem collecting_total (a : Option HxFile) (i : FileInfo) (ws : List File) :
    (collecting a i ws).filePacketTotal = (opened a i).filePacketTotal := rfl
@[simp] theorem collecting_fullPath (a : Option HxFile) (i : FileInfo) (ws : List File) :
    (collecting a i ws).fullPath = (opened a i).fullPath := rfl
@[simp] theorem collecting_filePackets (a : Option HxFile) (i : FileInfo) (ws : List File) :
    (collecting a i ws).filePackets = storeAll (a.getD {}).filePackets ws := rfl

theorem opened_none (i : FileInfo) :
    opened none i = ⟨i.mapName,i.fileName,i.filePacketTotal,∅,i.wholeFileMd5⟩ :=
  HxFile.setFileInfo_of_eq rfl _ _ _ _

theorem setFileInfo_collecting (a : Option HxFile) (i : FileInfo) (ws : List File) :
    (collecting a i ws).setFileInfo i.mapName i.fileName i.filePacketTotal i.wholeFileMd5 = collecting a i ws := by
  by_cases hne : (a.getD {}).fileName = []
  · have hopen : opened a i = _ := HxFile.setFileInfo_of_eq hne _ _ _ _
    simp [collecting,hopen,HxFile.setFileInfo]
  · have hopen : opened a i = _ := HxFile.setFileInfo_of_ne hne _ _ _ _
    exact HxFile.setFileInfo_of_ne (by simpa [collecting,hopen] using hne) _ _ _ _

/-- The entry after some packets that have not completed it. -/
def held (a : Option HxFile) (i : FileInfo) (ws : List File) : Option HxFile :=
  if ws = [] then a else some (collecting a i ws)

theorem storedEntry_held (a : Option HxFile) {i : FileInfo} (ws : List File) {w : File} (hw : fileInfo w = i) :
    storedEntry (held a i ws) w = collecting a i (ws ++ [w]) := by
  subst hw
  unfold held
  split
  · rename_i hnil
    subst hnil
    simp [storedEntry,collecting,opened,HxFile.stored,fileInfo,storeAll]
  · have hset := setFileInfo_collecting a (fileInfo w) ws
    simp only [storedEntry,Option.getD_some]
    rw [show (collecting a (fileInfo w) ws).setFileInfo w.mapName w.fileName w.filePacketTotal w.wholeFileMd5 = _
      from hset]
    simp [HxFile.stored,collecting]

/-- A packet whose save, if it starts one, succeeds. -/
def succeeding (file : File) : Upload := (file,{})

/-- The entry is full and its path converts, so that a succeeding save completes it. -/
def HxFile.Completes (f : HxFile) : Prop := f.Full ∧ ValidUtf8 f.fullPath

instance (f : HxFile) : Decidable f.Completes := inferInstanceAs (Decidable (_ ∧ _))

theorem succeeding_outcome {f : HxFile} (h : f.Completes) : f.outcome {} = .saved f.fullPath f.assembled := by
  rw [HxFile.outcome_saved h.1 h.2 rfl,HxFile.written_whole]
  rintro w hw ⟨k,hk,-⟩
  obtain ⟨i,-,rfl⟩ := List.mem_map.mp hw
  simp at hk

theorem outcome_done_iff {f : HxFile} : (f.outcome {}).done = true ↔ f.Completes := by
  constructor
  · intro h
    obtain ⟨hfull,hvalid,-⟩ := HxFile.outcome_done h
    exact ⟨hfull,hvalid⟩
  · intro h
    rw [succeeding_outcome h]
    rfl

section Run
variable {a : Option HxFile} {i : FileInfo} {ws : List File}

theorem Full_mono (vs : List File) (h : (collecting a i ws).Full) : (collecting a i (ws ++ vs)).Full := by
  refine Nat.le_trans h (Finset.card_le_card ?_)
  intro n hn
  simp only [collecting_filePackets,keys_storeAll,numbers,List.map_append,List.toFinset_append,
    Finset.mem_union] at hn ⊢
  tauto

theorem final_held (hinfo : ∀ w ∈ ws, fileInfo w = i)
    (hwait : ∀ pre post, ws = pre ++ post → pre ≠ [] → ¬ (collecting a i pre).Completes) :
    final entryStep a (ws.map succeeding) = held a i ws ∧
    ∀ x ∈ trace entryStep a (ws.map succeeding), x.2.done = false := by
  induction ws using List.reverseRecOn with
  | nil => simp [held]
  | append_singleton ws w ih =>
    obtain ⟨hf,ht⟩ := ih (fun w hw => hinfo w (by simp [hw]))
      (fun pre post hpre hne => hwait pre (post ++ [w]) (by simp [hpre]) hne)
    have hout : (entryStep (held a i ws) (succeeding w)).2 = (collecting a i (ws ++ [w])).outcome {} := by
      rw [entryStep_snd,succeeding,storedEntry_held a ws (hinfo w (by simp))]
    have hdone : (entryStep (held a i ws) (succeeding w)).2.done = false := by
      rw [hout,← Bool.not_eq_true,outcome_done_iff]
      exact hwait (ws ++ [w]) [] (by simp) (by simp)
    simp only [List.map_append,List.map_cons,List.map_nil,final_append,trace_append,final_cons,final_nil,
      trace_cons,trace_nil,hf]
    constructor
    · rw [entryStep_of_not_done hdone,succeeding,storedEntry_held a ws (hinfo w (by simp))]
      simp [held]
    · intro x hx
      rcases List.mem_append.mp hx with hx | hx
      · exact ht x hx
      · rw [List.mem_singleton.mp hx]
        exact hdone

theorem outcome_held {w : File} (hinfo : ∀ v ∈ ws ++ [w], fileInfo v = i)
    (hwait : ∀ pre post, ws = pre ++ post → pre ≠ [] → ¬ (collecting a i pre).Completes) :
    (entryStep (final entryStep a (ws.map succeeding)) (succeeding w)).2 =
      (collecting a i (ws ++ [w])).outcome {} := by
  rw [(final_held (fun v hv => hinfo v (by simp [hv])) hwait).1,entryStep_snd,succeeding,
    storedEntry_held a ws (hinfo w (by simp))]

theorem completed_last {w : File} (hinfo : ∀ v ∈ ws ++ [w], fileInfo v = i)
    (hwait : ∀ pre post, ws = pre ++ post → pre ≠ [] → ¬ (collecting a i pre).Completes)
    (hcomp : (collecting a i (ws ++ [w])).Completes) :
    final entryStep a ((ws ++ [w]).map succeeding) = none ∧
    (trace entryStep a ((ws ++ [w]).map succeeding)).filterMap (fun x => x.2.save) =
      [((opened a i).fullPath,(collecting a i (ws ++ [w])).assembled)] := by
  have hlast := outcome_held hinfo hwait
  rw [succeeding_outcome hcomp] at hlast
  have hfirst : (trace entryStep a (ws.map succeeding)).filterMap (fun x => x.2.save) = [] := by
    rw [List.filterMap_eq_nil_iff]
    intro x hx
    have hdone := (final_held (fun v hv => hinfo v (by simp [hv])) hwait).2 x hx
    revert hdone
    cases x.2 <;> simp [Receipt.done,Receipt.save]
  rw [List.map_append,final_append,trace_append,List.filterMap_append,hfirst]
  constructor
  · exact entryStep_of_done (by rw [hlast]; rfl)
  · simp [hlast,Receipt.save]

end Run

section Completion
variable {a : Option HxFile} {i : FileInfo}

/-- Either the packets are held, or one of them is the first to complete the entry. -/
theorem held_or_completes (a : Option HxFile) (i : FileInfo) (ws : List File) :
    (∀ pre post, ws = pre ++ post → pre ≠ [] → ¬ (collecting a i pre).Completes) ∨
    ∃ pre w post, ws = pre ++ w :: post ∧ (collecting a i (pre ++ [w])).Completes ∧
      ∀ p q, pre = p ++ q → p ≠ [] → ¬ (collecting a i p).Completes := by
  induction ws using List.reverseRecOn with
  | nil => exact Or.inl (fun pre post h hne => absurd (List.append_eq_nil_iff.mp h.symm).1 hne)
  | append_singleton ws w ih =>
    rcases ih with hheld | ⟨pre,v,post,rfl,hcomp,hpre⟩
    · by_cases hcomp : (collecting a i (ws ++ [w])).Completes
      · exact Or.inr ⟨ws,w,[],rfl,hcomp,hheld⟩
      · refine Or.inl (fun pre post h hne => ?_)
        obtain rfl | ⟨post',v,rfl⟩ := List.eq_nil_or_concat' post
        · rw [List.append_nil] at h
          exact h ▸ hcomp
        · rw [← List.append_assoc] at h
          exact hheld pre post' (List.append_inj' h rfl).1 hne
    · exact Or.inr ⟨pre,v,post ++ [w],by simp,hcomp,hpre⟩

theorem final_ne_none_of_short {ws : List File} (hinfo : ∀ w ∈ ws, fileInfo w = i) (hne : ws ≠ [])
    (hshort : (ws.length : ℤ) < i.filePacketTotal.toInt) : final entryStep none (ws.map succeeding) ≠ none := by
  have hwait : ∀ pre post, ws = pre ++ post → pre ≠ [] → ¬ (collecting none i pre).Completes := by
    rintro pre post rfl - ⟨hfull,-⟩
    have hcard : (collecting none i pre).filePackets.keys.card ≤ pre.length := by
      have hempty : ((none : Option HxFile).getD {}).filePackets.keys = ∅ := Finmap.keys_empty
      rw [collecting_filePackets,keys_storeAll,hempty,Finset.empty_union]
      exact (List.toFinset_card_le _).trans (by simp [numbers])
    have hi : (collecting none i pre).filePacketTotal = i.filePacketTotal := by rw [collecting_total,opened_none]
    unfold HxFile.Full at hfull
    rw [hi,sizeOfInt_of_nonneg (by omega)] at hfull
    simp only [List.length_append,Nat.cast_add] at hshort
    omega
  rw [(final_held hinfo hwait).1,held,if_neg hne]
  exact Option.some_ne_none _

end Completion

/-- All packets of one file, in some order. -/
structure Transfer (i : FileInfo) (ws : List File) : Prop where
  info : ∀ w ∈ ws, fileInfo w = i
  nodup : (numbers ws).Nodup
  total : i.filePacketTotal.toInt = ws.length
  ne_nil : ws ≠ []
  path_utf8 : ValidUtf8 i.fullPath

namespace Transfer
variable {i : FileInfo} {ws : List File}

/-- The bytes that a transfer puts on disk. -/
def bytes (i : FileInfo) (ws : List File) : Bytes := (collecting none i ws).assembled

theorem perm (h : Transfer i ws) {vs : List File} (hp : ws.Perm vs) : Transfer i vs where
  info w hw := h.info w (hp.mem_iff.mpr hw)
  nodup := (hp.map File.filePacketNum).nodup_iff.mp h.nodup
  total := by rw [h.total,hp.length_eq]
  ne_nil hnil := h.ne_nil (hp.length_eq.trans (by rw [hnil]; rfl) |> List.length_eq_zero_iff.mp)
  path_utf8 := h.path_utf8

theorem bytes_perm (h : Transfer i ws) {vs : List File} (hp : ws.Perm vs) : bytes i vs = bytes i ws := by
  have hstored : ∀ m : PacketMap, storeAll m vs = storeAll m ws := by
    intro m
    apply Finmap.ext_lookup
    intro n
    by_cases hn : n ∈ numbers ws
    · obtain ⟨w,hw,rfl⟩ := List.mem_map.mp hn
      rw [lookup_storeAll_of_mem h.nodup hw,lookup_storeAll_of_mem (h.perm hp).nodup (hp.mem_iff.mp hw)]
    · rw [lookup_storeAll_of_notMem hn,
        lookup_storeAll_of_notMem (fun hv => hn ((hp.map File.filePacketNum).mem_iff.mpr hv))]
  simp only [bytes,collecting,hstored]

theorem full_iff (h : Transfer i ws) {pre post : List File} (hws : ws = pre ++ post) :
    (collecting none i pre).Full ↔ post = [] := by
  have hnodup : (numbers pre).Nodup := by
    have := h.nodup
    rw [hws,numbers,List.map_append] at this
    exact this.of_append_left
  have hcard : (collecting none i pre).filePackets.keys.card = pre.length := by
    have hempty : ((none : Option HxFile).getD {}).filePackets.keys = ∅ := Finmap.keys_empty
    rw [collecting_filePackets,keys_storeAll,hempty,Finset.empty_union,List.toFinset_card_of_nodup hnodup]
    simp [numbers]
  have htotal : sizeOfInt (collecting none i pre).filePacketTotal = ws.length := by
    have htot := h.total
    have hi : (collecting none i pre).filePacketTotal = i.filePacketTotal := by rw [collecting_total,opened_none]
    rw [hi,sizeOfInt_of_nonneg (by omega)]
    omega
  unfold HxFile.Full
  rw [hcard,htotal,hws,List.length_append,← List.length_eq_zero_iff]
  omega

theorem not_completes (h : Transfer i ws) {pre post : List File} (hws : ws = pre ++ post) (hpost : post ≠ []) :
    ¬ (collecting none i pre).Completes := fun hc => hpost ((h.full_iff hws).mp hc.1)

theorem completes (h : Transfer i ws) : (collecting none i ws).Completes := by
  refine ⟨(h.full_iff (List.append_nil ws).symm).mpr rfl,?_⟩
  rw [collecting_fullPath,opened_none]
  exact h.path_utf8

theorem outcome (h : Transfer i ws) {pre post : List File} {w : File} (hws : ws = pre ++ w :: post) :
    (entryStep (final entryStep none (pre.map succeeding)) (succeeding w)).2 =
      if post = [] then .saved i.fullPath (bytes i ws) else .waiting := by
  have hsplit : ws = (pre ++ [w]) ++ post := by simp [hws]
  rw [outcome_held (i := i) (fun v hv => h.info v (by rw [hsplit]; exact List.mem_append_left _ hv))
    (fun p q hp _ => h.not_completes (show ws = p ++ (q ++ w :: post) by simp [hws,hp]) (by simp))]
  split
  · rename_i hnil
    have hall : pre ++ [w] = ws := by simp [hws,hnil]
    rw [hall,succeeding_outcome h.completes,collecting_fullPath,opened_none]
    rfl
  · rename_i hne
    exact HxFile.outcome_waiting_iff.mpr (fun hfull => hne ((h.full_iff hsplit).mp hfull))

theorem completed (h : Transfer i ws) : final entryStep none (ws.map succeeding) = none ∧
    (trace entryStep none (ws.map succeeding)).filterMap (fun x => x.2.save) = [(i.fullPath,bytes i ws)] := by
  obtain rfl | ⟨pre,w,rfl⟩ := List.eq_nil_or_concat' ws
  · exact absurd rfl h.ne_nil
  · obtain ⟨hfinal,hsaves⟩ := completed_last h.info
      (fun p q hp _ => h.not_completes (show pre ++ [w] = p ++ (q ++ [w]) by simp [hp]) (by simp)) h.completes
    refine ⟨hfinal,hsaves.trans ?_⟩
    rw [opened_none]
    rfl

end Transfer
end FDemo.MapServer
