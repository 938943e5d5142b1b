import FDemo.MapServer.Receiver

/-! # What a receiver entry remembers

The history of a file name since its entry was created is read off the receipts
alone: it is what follows the last packet for which `receive` returned true.
Every entry of `filesReceiver` is determined by that history.
-/
namespace FDemo.MapServer
open Packet Mealy

abbrev History := List (Upload × Receipt)

/-- The packets for `k`, with their receipts, since the entry for `k` was created. -/
def sinceCreation (k : Bytes) (t : History) : History := epoch Receipt.done (receiptsOf k t)

def latest (h : History) (n : Int32) : Option Bytes :=
  (h.filterMap fun x => if x.1.1.filePacketNum = n then some x.1.1.fileContent else none).getLast?

def lastAttempt (h : History) : Option Receipt := ((h.map Prod.snd).filter Receipt.attempted).getLast?

def Server.fresh (d : Disk) : Server := ⟨∅,d⟩

/-- What an entry with key `k` says about the history since it was created. -/
structure EntryInvariant (k : Bytes) (h : History) (f : HxFile) : Prop where
  fileName : f.fileName = k
  /-- The info is that of the first packet, unless the file name is empty and never counts as set. -/
  info : k ≠ [] → ∃ p rest, h = p :: rest ∧ f.mapName = p.1.1.mapName ∧
    f.filePacketTotal = p.1.1.filePacketTotal ∧ f.fileWholeMd5 = p.1.1.wholeFileMd5
  filePackets : ∀ n, f.filePackets.lookup n = latest h n
  /-- Unless the most recent save attempt failed, packets are still missing. -/
  size : (∀ r, lastAttempt h = some r → r.done = true) →
    f.filePackets.keys.card < sizeOfInt f.filePacketTotal

/-- No entry exactly when there is no packet, else an entry that reflects the packets. -/
def Reflects (k : Bytes) (h : History) : Option HxFile → Prop
  | none => h = []
  | some f => EntryInvariant k h f

theorem latest_concat (h : History) (x : Upload × Receipt) (n : Int32) :
    latest (h ++ [x]) n = if x.1.1.filePacketNum = n then some x.1.1.fileContent else latest h n := by
  unfold latest
  rw [List.filterMap_append]
  by_cases hn : x.1.1.filePacketNum = n <;> simp [hn]

theorem lastAttempt_concat_attempted (h : History) {x : Upload × Receipt} (hx : x.2.attempted = true) :
    lastAttempt (h ++ [x]) = some x.2 := by
  simp [lastAttempt,List.filter_append,hx]

theorem lookup_stored (f : HxFile) (n : Int32) (c : Bytes) (i : Int32) :
    (f.stored n c).filePackets.lookup i = if n = i then some c else f.filePackets.lookup i := by
  by_cases hi : n = i
  · subst hi
    simp
  · simp [hi,Finmap.lookup_insert_of_ne f.filePackets (Ne.symm hi)]

theorem reflects_step {k : Bytes} {h : History} {a : Option HxFile} {e : Upload} (hr : Reflects k h a)
    (hk : uploadKey e = k) (hd : (entryStep a e).2.done = false) :
    Reflects k (h ++ [(e,(entryStep a e).2)]) (entryStep a e).1 := by
  rw [entryStep_of_not_done hd]
  have hsize : (∀ r, lastAttempt (h ++ [(e,(entryStep a e).2)]) = some r → r.done = true) →
      (storedEntry a e.1).filePackets.keys.card < sizeOfInt (storedEntry a e.1).filePacketTotal := by
    intro hlast
    cases hatt : (entryStep a e).2.attempted with
    | true =>
      have := hlast _ (lastAttempt_concat_attempted h hatt)
      simp [hd] at this
    | false =>
      have hwait : (storedEntry a e.1).outcome e.2 = .waiting := by
        rw [← entryStep_snd]
        revert hatt
        cases (entryStep a e).2 <;> simp [Receipt.attempted]
      exact Nat.not_le.mp (HxFile.outcome_waiting_iff.mp hwait)
  cases a with
  | none =>
    have hnil : h = [] := hr
    subst hnil
    have hempty : ({} : HxFile).fileName = [] := rfl
    refine ⟨?_,fun _ => ⟨(e,(entryStep none e).2),[],rfl,?_,?_,?_⟩,fun n => ?_,hsize⟩
    · simpa [storedEntry,HxFile.setFileInfo_of_eq hempty] using (show e.1.fileName = k from hk)
    · simp [storedEntry,HxFile.setFileInfo_of_eq hempty]
    · simp [storedEntry,HxFile.setFileInfo_of_eq hempty]
    · simp [storedEntry,HxFile.setFileInfo_of_eq hempty]
    · rw [latest_concat,storedEntry,lookup_stored]
      simp [latest,HxFile.setFileInfo_filePackets]
  | some f =>
    have hf : EntryInvariant k h f := hr
    refine ⟨?_,fun hne => ?_,fun n => ?_,hsize⟩
    · by_cases hne : f.fileName = []
      · simpa [storedEntry,HxFile.setFileInfo_of_eq hne] using (show e.1.fileName = k from hk)
      · simpa [storedEntry,HxFile.setFileInfo_of_ne hne] using hf.fileName
    · obtain ⟨p,rest,rfl,hmap,htotal,hmd5⟩ := hf.info hne
      have hset : f.fileName ≠ [] := hf.fileName ▸ hne
      refine ⟨p,rest ++ [(e,(entryStep (some f) e).2)],rfl,?_,?_,?_⟩
      · simpa [storedEntry,HxFile.setFileInfo_of_ne hset] using hmap
      · simpa [storedEntry,HxFile.setFileInfo_of_ne hset] using htotal
      · simpa [storedEntry,HxFile.setFileInfo_of_ne hset] using hmd5
    · rw [latest_concat,storedEntry,lookup_stored,HxFile.setFileInfo_filePackets,Option.getD_some,hf.filePackets]

theorem reflects_trace {k : Bytes} {es : List Upload} (hk : ∀ e ∈ es, uploadKey e = k)
    (hd : ∀ x ∈ trace entryStep none es, x.2.done = false) :
    Reflects k (trace entryStep none es) (final entryStep none es) := by
  induction es using List.reverseRecOn with
  | nil => rfl
  | append_singleton es e ih =>
    simp only [trace_append,final_append,trace_cons,trace_nil,final_cons,final_nil] at hd ⊢
    refine reflects_step (ih (fun e he => hk e (by simp [he])) (fun x hx => hd x (by simp [hx]))) (hk e (by simp)) ?_
    exact hd (e,_) (by simp)

theorem entryStep_closes (a : Option HxFile) (e : Upload) :
    (entryStep a e).2.done = true → (entryStep a e).1 = none := entryStep_of_done

theorem mem_sinceCreation {s : Server} {es : List Upload} {k : Bytes} {x : Upload × Receipt}
    (hx : x ∈ sinceCreation k (s.receipts es)) : x.1 ∈ es ∧ uploadKey x.1 = k := by
  have hmem : x ∈ receiptsOf k (s.receipts es) := (List.rtakeWhile_suffix _ _).subset hx
  obtain ⟨hreceipt,hkey⟩ := List.mem_filter.mp hmem
  exact ⟨fst_mem_of_mem_receipts hreceipt,by simpa using hkey⟩

theorem reflects_run (d : Disk) (es : List Upload) (k : Bytes) :
    Reflects k (sinceCreation k ((Server.fresh d).receipts es))
      (((Server.fresh d).run es).filesReceiver.lookup k) := by
  have hnone : (Server.fresh d).filesReceiver.lookup k = none := Finmap.lookup_empty k
  have hsince : sinceCreation k ((Server.fresh d).receipts es) =
      epoch Receipt.done (trace entryStep none (packetsOf k es)) := by
    rw [sinceCreation,receiptsOf_receipts,hnone]
  obtain ⟨hfinal,htrace⟩ := final_epoch entryStep Receipt.done entryStep_closes (packetsOf k es)
  rw [← hsince] at hfinal htrace
  rw [run_lookup,hnone,hfinal]
  conv => arg 2; rw [← htrace]
  apply reflects_trace
  · intro e he
    obtain ⟨x,hx,rfl⟩ := List.mem_map.mp he
    exact (mem_sinceCreation hx).2
  · intro x hx
    rw [htrace] at hx
    exact not_done_of_mem_epoch Receipt.done hx

/-- The history is empty exactly while there is no entry: it starts with the packet that created it. -/
theorem sinceCreation_eq_nil_iff (d : Disk) (es : List Upload) (k : Bytes) :
    sinceCreation k ((Server.fresh d).receipts es) = [] ↔ k ∉ ((Server.fresh d).run es).filesReceiver := by
  have hreflects := reflects_run d es k
  rw [← Finmap.lookup_eq_none]
  constructor
  · intro hnil
    have hnone : (Server.fresh d).filesReceiver.lookup k = none := Finmap.lookup_empty k
    rw [sinceCreation,receiptsOf_receipts,hnone] at hnil
    rw [run_lookup,hnone,(final_epoch entryStep Receipt.done entryStep_closes (packetsOf k es)).1,hnil]
    rfl
  · intro hnone
    rw [hnone] at hreflects
    exact hreflects

theorem receiver_entry_invariant (d : Disk) (es : List Upload) (k : Bytes) (f : HxFile)
    (hf : ((Server.fresh d).run es).filesReceiver.lookup k = some f) :
    EntryInvariant k (sinceCreation k ((Server.fresh d).receipts es)) f := by
  have h := reflects_run d es k
  rw [hf] at h
  exact h

def savedThenPending : List Upload :=
  [({ fileName := utf8 "f", fileContent := [7], filePacketTotal := 1 },{}),
    ({ fileName := utf8 "g", fileContent := [8], filePacketTotal := 3 },{}),
    ({ mapName := utf8 "m", fileName := utf8 "f", fileContent := [1], filePacketTotal := 2 },{})]

theorem receiver_entry_invariant_pending : EntryInvariant (utf8 "f")
    (sinceCreation (utf8 "f") ((Server.fresh .blank).receipts savedThenPending))
    ⟨utf8 "m",utf8 "f",2,Finmap.singleton 0 [1],[]⟩ :=
  receiver_entry_invariant .blank savedThenPending (utf8 "f") _ (by decide +kernel)

end FDemo.MapServer
