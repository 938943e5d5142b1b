import FDemo.Foundation.Threads
import FDemo.MapServer.Collecting
import FDemo.MapServer.History

/-! # The upload branch on several event loops

The three steps of the upload branch look the file name up each on their own, so
calls for one name can come between each other's steps. A schedule is as good as
running the calls one after the other, in the order in which they receive, as
long as every receiving call finds the entry that its own look-up has made of
what is held, and nothing is held any more when a completing call erases.
-/
namespace FDemo.MapServer
open Packet Mealy Threads

/-- A call of the upload branch between its atomic steps. -/
inductive UploadCall where
  | called (e : Upload)
  | infoSet (e : Upload)
  | received (e : Upload) (r : Receipt)
  | returned (r : Receipt)

def uploadStep (s : Server) : UploadCall → Server × UploadCall × Option Receipt
  | .called e => (s.setFileInfo e.1,.infoSet e,none)
  | .infoSet e =>
    let r := s.receive e.1 e.2
    (r.1,.received e r.2,some r.2)
  | .received e r => (s.eraseDone e.1 r,.returned r,none)
  | .returned r => (s,.returned r,none)

/-- The entry of a file name if it holds packets. -/
def Server.holding (s : Server) (k : Bytes) : Option HxFile :=
  (s.filesReceiver.lookup k).filter fun f => decide (f.filePackets ≠ ∅)

/-- The next step of a call meets the map as if no other call were under way for its file name. -/
def UploadCall.Uninterrupted (s : Server) : UploadCall → Prop
  | called _ => True
  | infoSet e => s.entry (uploadKey e) = opened (s.holding (uploadKey e)) (fileInfo e.1)
  | received e r => r.done = true → (s.entry (uploadKey e)).filePackets = ∅
  | returned _ => True

instance decidableUninterrupted (s : Server) : (call : UploadCall) → Decidable (call.Uninterrupted s)
  | .called _ => isTrue trivial
  | .infoSet _ => inferInstanceAs (Decidable (_ = _))
  | .received _ _ => inferInstanceAs (Decidable (_ → _))
  | .returned _ => isTrue trivial

/-- The file name under which a call may have left an entry without packets, or is about to fill one. -/
def UploadCall.pending : UploadCall → Option Bytes
  | called _ => none
  | infoSet e => some (uploadKey e)
  | received e r => if r.done then some (uploadKey e) else none
  | returned _ => none

/-- The packet of a call that is under way. -/
def UploadCall.upload : UploadCall → Option Upload
  | called e => some e
  | infoSet e => some e
  | received e _ => some e
  | returned _ => none

section Calls
variable {ι : Type*} [DecidableEq ι]

/-- The server `t` is what the calls that have received make of it one after the other. -/
structure Simulates (c : Config ι Server UploadCall) (t : Server) : Prop where
  disk : c.shared.disk = t.disk
  packets : ∀ k, (c.shared.entry k).filePackets = (t.entry k).filePackets
  named : ∀ k f, c.shared.filesReceiver.lookup k = some f → f.fileName = k
  held : ∀ k f, t.filesReceiver.lookup k = some f → f.filePackets ≠ ∅ ∧ f.fileName = k
  kept : ∀ k f, k ≠ [] → t.filesReceiver.lookup k = some f → c.shared.filesReceiver.lookup k = some f
  settled : ∀ k, (∀ i, (c.calls i).pending ≠ some k) → c.shared.filesReceiver.lookup k = t.filesReceiver.lookup k

section Entries
variable {s : Server} {k : Bytes}

theorem entry_of_some {f : HxFile} (h : s.filesReceiver.lookup k = some f) : s.entry k = f := by
  rw [Server.entry,h,Option.getD_some]

theorem entry_of_none (h : s.filesReceiver.lookup k = none) : s.entry k = {} := by
  rw [Server.entry,h,Option.getD_none]

theorem entry_congr {s t : Server} (h : s.filesReceiver.lookup k = t.filesReceiver.lookup k) :
    s.entry k = t.entry k := by
  rw [Server.entry,h,Server.entry]

theorem setFileInfo_fileName {f : HxFile} (h : f.fileName = [] ∨ f.fileName = k) {i : FileInfo} (hi : i.fileName = k) :
    (f.setFileInfo i.mapName i.fileName i.filePacketTotal i.wholeFileMd5).fileName = k := by
  by_cases hne : f.fileName = []
  · rw [HxFile.setFileInfo_of_eq hne]
    exact hi
  · rw [HxFile.setFileInfo_of_ne hne]
    exact h.resolve_left hne

end Entries

theorem pending_before {c : Config ι Server UploadCall} {i : ι} {k : Bytes}
    (hk : ∀ j, ((turn uploadStep c i).1.calls j).pending ≠ some k) (hi : (c.calls i).pending ≠ some k) (j : ι) :
    (c.calls j).pending ≠ some k := by
  by_cases hj : j = i
  · rw [hj]
    exact hi
  · have := hk j
    rwa [turn_calls_ne _ _ _ hj] at this

section Turn
variable {c : Config ι Server UploadCall} {t : Server} (h : Simulates c t) {i : ι} {e : Upload}
include h

omit [DecidableEq ι] in
theorem entry_fileName (k : Bytes) : (c.shared.entry k).fileName = [] ∨ (c.shared.entry k).fileName = k := by
  cases hl : c.shared.filesReceiver.lookup k with
  | none =>
    rw [entry_of_none hl]
    exact Or.inl rfl
  | some f =>
    rw [entry_of_some hl]
    exact Or.inr (h.named k f hl)

theorem simulates_setFileInfo (hcall : c.calls i = .called e) : Simulates (turn uploadStep c i).1 t := by
  have hshared : (turn uploadStep c i).1.shared = c.shared.setFileInfo e.1 := by rw [turn_shared,hcall]; rfl
  have hmap : (c.shared.setFileInfo e.1).filesReceiver = c.shared.filesReceiver.insert (uploadKey e)
      ((c.shared.entry (uploadKey e)).setFileInfo e.1.mapName e.1.fileName e.1.filePacketTotal e.1.wholeFileMd5) := rfl
  have hself : (c.shared.setFileInfo e.1).filesReceiver.lookup (uploadKey e) =
      some ((c.shared.entry (uploadKey e)).setFileInfo e.1.mapName e.1.fileName e.1.filePacketTotal
        e.1.wholeFileMd5) := by rw [hmap,Finmap.lookup_insert]
  have hother : ∀ {k}, k ≠ uploadKey e →
      (c.shared.setFileInfo e.1).filesReceiver.lookup k = c.shared.filesReceiver.lookup k := by
    intro k hk
    rw [hmap,Finmap.lookup_insert_of_ne _ hk]
  constructor
  · rw [hshared]
    exact h.disk
  · intro k
    rw [hshared,← h.packets k]
    by_cases hk : k = uploadKey e
    · rw [hk,entry_of_some hself,HxFile.setFileInfo_filePackets]
    · rw [entry_congr (hother hk)]
  · intro k f hf
    rw [hshared] at hf
    by_cases hk : k = uploadKey e
    · rw [hk,hself] at hf
      obtain rfl := Option.some.inj hf
      exact (setFileInfo_fileName (entry_fileName h _) (i := fileInfo e.1) rfl).trans hk.symm
    · rw [hother hk] at hf
      exact h.named k f hf
  · exact h.held
  · intro k f hk hf
    have hlookup := h.kept k f hk hf
    rw [hshared]
    by_cases hke : k = uploadKey e
    · have hname : f.fileName ≠ [] := (h.held k f hf).2 ▸ hk
      rw [hke] at hlookup ⊢
      rw [hself,entry_of_some hlookup,HxFile.setFileInfo_of_ne hname]
    · rw [hother hke,hlookup]
  · intro k hk
    have hke : k ≠ uploadKey e := by
      intro heq
      apply hk i
      rw [turn_calls_self,hcall,heq]
      rfl
    rw [hshared,hother hke]
    exact h.settled k (pending_before hk (by rw [hcall]; exact (Option.some_ne_none k).symm))

omit [DecidableEq ι] in
/-- A key without packets has no entry on the sequential server. -/
theorem lookup_eq_none_of_empty {k : Bytes} (hempty : (c.shared.entry k).filePackets = ∅) :
    t.filesReceiver.lookup k = none := by
  cases ht : t.filesReceiver.lookup k with
  | none => rfl
  | some f =>
    have hpackets := (h.packets k).symm.trans hempty
    rw [entry_of_some ht] at hpackets
    exact absurd hpackets (h.held _ f ht).1

omit [DecidableEq ι] in
/-- A call that is not interrupted receives into the entry that the calls before it have left. -/
theorem stored_eq_storedEntry (hclean : (UploadCall.infoSet e).Uninterrupted c.shared) :
    (c.shared.entry (uploadKey e)).stored e.1.filePacketNum e.1.fileContent =
      storedEntry (t.filesReceiver.lookup (uploadKey e)) e.1 := by
  have hopened : c.shared.entry (uploadKey e) = opened (t.filesReceiver.lookup (uploadKey e)) (fileInfo e.1) := by
    have hpackets := h.packets (uploadKey e)
    rw [show c.shared.entry (uploadKey e) = opened (c.shared.holding (uploadKey e)) (fileInfo e.1) from hclean]
    unfold Server.holding
    cases hl : c.shared.filesReceiver.lookup (uploadKey e) with
    | none =>
      rw [lookup_eq_none_of_empty h (by rw [entry_of_none hl])]
      rfl
    | some g =>
      rw [entry_of_some hl] at hpackets
      cases ht : t.filesReceiver.lookup (uploadKey e) with
      | none =>
        rw [entry_of_none ht] at hpackets
        have hempty : g.filePackets = ∅ := hpackets
        rw [Option.filter_some_neg (by simpa using hempty)]
      | some f =>
        rw [entry_of_some ht] at hpackets
        obtain ⟨hne,hname⟩ := h.held _ f ht
        rw [Option.filter_some_pos (by simpa [hpackets] using hne)]
        by_cases hk : uploadKey e = []
        · -- the info of an entry without a file name is set anew by every call
          have hgname : g.fileName = [] := (h.named _ g hl).trans hk
          have hg : opened (some g) (fileInfo e.1) = _ := HxFile.setFileInfo_of_eq hgname _ _ _ _
          have hf : opened (some f) (fileInfo e.1) = _ := HxFile.setFileInfo_of_eq (hname.trans hk) _ _ _ _
          rw [hg,hf]
          simp only [hpackets]
        · obtain rfl := Option.some.inj (hl.symm.trans (h.kept _ f hk ht))
          rfl
  rw [hopened]
  rfl

omit h in
theorem storedEntry_filePackets_ne (a : Option HxFile) (file : File) : (storedEntry a file).filePackets ≠ ∅ := by
  intro hempty
  have hmem : file.filePacketNum ∈ (storedEntry a file).filePackets := by
    unfold storedEntry
    rw [HxFile.stored_filePackets,Finmap.mem_insert]
    exact Or.inl rfl
  rw [hempty] at hmem
  exact Finmap.notMem_empty hmem

omit [DecidableEq ι] in
theorem storedEntry_fileName : (storedEntry (t.filesReceiver.lookup (uploadKey e)) e.1).fileName = uploadKey e := by
  have hname : ((t.filesReceiver.lookup (uploadKey e)).getD {}).fileName = [] ∨
      ((t.filesReceiver.lookup (uploadKey e)).getD {}).fileName = uploadKey e := by
    cases ht : t.filesReceiver.lookup (uploadKey e) with
    | none => exact Or.inl rfl
    | some f => exact Or.inr (h.held _ f ht).2
  exact setFileInfo_fileName hname (i := fileInfo e.1) rfl

/-- Both servers get an entry for one key: the same one, or none against one without packets. -/
theorem simulates_entry {k : Bytes} {g : HxFile} {a : Option HxFile} {d : Disk}
    (hshared : (turn uploadStep c i).1.shared = ⟨c.shared.filesReceiver.insert k g,d⟩) (hname : g.fileName = k)
    (hpackets : g.filePackets = (a.getD {}).filePackets) (hsome : ∀ f, a = some f → f = g ∧ g.filePackets ≠ ∅)
    (hbefore : (c.calls i).pending = some k)
    (hafter : a = none → ((turn uploadStep c i).1.calls i).pending = some k) :
    Simulates (turn uploadStep c i).1 ⟨setEntry t.filesReceiver k a,d⟩ := by
  have hself : (⟨c.shared.filesReceiver.insert k g,d⟩ : Server).filesReceiver.lookup k = some g :=
    Finmap.lookup_insert _
  have hother : ∀ {j}, j ≠ k →
      (⟨c.shared.filesReceiver.insert k g,d⟩ : Server).filesReceiver.lookup j = c.shared.filesReceiver.lookup j :=
    fun hj => Finmap.lookup_insert_of_ne _ hj
  have hset : (⟨setEntry t.filesReceiver k a,d⟩ : Server).filesReceiver.lookup k = a := lookup_setEntry _ _ _
  have hsetOther : ∀ {j}, j ≠ k →
      (⟨setEntry t.filesReceiver k a,d⟩ : Server).filesReceiver.lookup j = t.filesReceiver.lookup j :=
    fun hj => lookup_setEntry_ne _ hj _
  constructor
  · rw [hshared]
  · intro j
    rw [hshared]
    by_cases hj : j = k
    · rw [hj,entry_of_some hself,Server.entry,hset,hpackets]
    · rw [entry_congr (hother hj),entry_congr (hsetOther hj)]
      exact h.packets j
  · intro j f hf
    rw [hshared] at hf
    by_cases hj : j = k
    · rw [hj,hself] at hf
      rw [hj,← Option.some.inj hf,hname]
    · rw [hother hj] at hf
      exact h.named j f hf
  · intro j f hf
    by_cases hj : j = k
    · rw [hj,hset] at hf
      obtain ⟨rfl,hne⟩ := hsome f hf
      exact ⟨hne,hname.trans hj.symm⟩
    · rw [hsetOther hj] at hf
      exact h.held j f hf
  · intro j f hne hf
    rw [hshared]
    by_cases hj : j = k
    · rw [hj,hset] at hf
      rw [hj,hself,(hsome f hf).1]
    · rw [hsetOther hj] at hf
      rw [hother hj]
      exact h.kept j f hne hf
  · intro j hpending
    rw [hshared]
    by_cases hj : j = k
    · subst hj
      cases ha : a with
      | none => exact absurd (hafter ha) (hpending i)
      | some f => rw [hself,lookup_setEntry,(hsome f ha).1]
    · rw [hother hj,hsetOther hj]
      refine h.settled j (pending_before hpending ?_)
      rw [hbefore]
      exact fun heq => hj (Option.some.inj heq).symm

theorem simulates_receive (hcall : c.calls i = .infoSet e) (hclean : (UploadCall.infoSet e).Uninterrupted c.shared) :
    Simulates (turn uploadStep c i).1 (t.upload e).1 ∧ (turn uploadStep c i).2 = some (t.upload e).2 := by
  have hname := storedEntry_fileName h (e := e)
  have hne := storedEntry_filePackets_ne (t.filesReceiver.lookup (uploadKey e)) e.1
  have hreceive : c.shared.receive e.1 e.2 = (⟨c.shared.filesReceiver.insert (uploadKey e)
      ((storedEntry (t.filesReceiver.lookup (uploadKey e)) e.1).settled e.2),
      (storedEntry (t.filesReceiver.lookup (uploadKey e)) e.1).settledDisk e.2 t.disk⟩,
      (storedEntry (t.filesReceiver.lookup (uploadKey e)) e.1).outcome e.2) := by
    rw [← stored_eq_storedEntry h hclean,← h.disk]
    simp only [Server.receive,HxFile.receive_eq]
    rfl
  have hshared : (turn uploadStep c i).1.shared = (c.shared.receive e.1 e.2).1 := by rw [turn_shared,hcall]; rfl
  have hself : (turn uploadStep c i).1.calls i = .received e (c.shared.receive e.1 e.2).2 := by
    rw [turn_calls_self,hcall]
    rfl
  have hresult : (turn uploadStep c i).2 = some (c.shared.receive e.1 e.2).2 := by rw [turn_result,hcall]; rfl
  have hbefore : (c.calls i).pending = some (uploadKey e) := by rw [hcall]; rfl
  rw [hreceive] at hshared hself hresult
  rw [upload_eq,entryStep_snd]
  refine ⟨?_,hresult⟩
  cases hd : (entryStep (t.filesReceiver.lookup (uploadKey e)) e).2.done with
  | true =>
    rw [entryStep_of_done hd]
    rw [entryStep_snd] at hd
    have hsettled : (storedEntry (t.filesReceiver.lookup (uploadKey e)) e.1).settled e.2 =
        { storedEntry (t.filesReceiver.lookup (uploadKey e)) e.1 with filePackets := ∅ } := if_pos hd
    refine simulates_entry h hshared (by rw [hsettled]; exact hname) (by rw [hsettled]; rfl)
      (fun f hf => absurd hf (Option.some_ne_none f).symm) hbefore (fun _ => ?_)
    rw [hself]
    exact if_pos hd
  | false =>
    rw [entryStep_of_not_done hd]
    rw [entryStep_snd] at hd
    have hsettled : (storedEntry (t.filesReceiver.lookup (uploadKey e)) e.1).settled e.2 =
        storedEntry (t.filesReceiver.lookup (uploadKey e)) e.1 := if_neg (by simp [hd])
    rw [hsettled] at hshared
    exact simulates_entry h hshared hname rfl (fun f hf => ⟨(Option.some.inj hf).symm,hne⟩) hbefore
      (fun ha => absurd ha (Option.some_ne_none _))

/-- An erase after a receive that has not completed the entry changes nothing. -/
theorem simulates_erase_pending {r : Receipt} (hcall : c.calls i = .received e r) (hd : r.done = false) :
    Simulates (turn uploadStep c i).1 t := by
  have hshared : (turn uploadStep c i).1.shared = c.shared.eraseDone e.1 r := by rw [turn_shared,hcall]; rfl
  have hsame : (turn uploadStep c i).1.shared = c.shared := by
    rw [hshared,Server.eraseDone,hd]
    rfl
  refine ⟨hsame ▸ h.disk,hsame ▸ h.packets,hsame ▸ h.named,h.held,hsame ▸ h.kept,fun k hk => ?_⟩
  rw [hsame]
  refine h.settled k (pending_before hk ?_)
  rw [hcall]
  simp [UploadCall.pending,hd]

/-- An erase takes away an entry that the sequential server does not have any more. -/
theorem simulates_erase_done {r : Receipt} (hcall : c.calls i = .received e r) (hd : r.done = true)
    (hempty : (c.shared.entry (uploadKey e)).filePackets = ∅) : Simulates (turn uploadStep c i).1 t := by
  have hshared : (turn uploadStep c i).1.shared = c.shared.eraseDone e.1 r := by rw [turn_shared,hcall]; rfl
  have herased : (turn uploadStep c i).1.shared =
      ⟨c.shared.filesReceiver.erase (uploadKey e),c.shared.disk⟩ := by
    rw [hshared,Server.eraseDone,if_pos hd]
    rfl
  have hself : (⟨c.shared.filesReceiver.erase (uploadKey e),c.shared.disk⟩ : Server).filesReceiver.lookup
      (uploadKey e) = none := Finmap.lookup_erase _ _
  have hother : ∀ {j}, j ≠ uploadKey e → (⟨c.shared.filesReceiver.erase (uploadKey e),c.shared.disk⟩ :
      Server).filesReceiver.lookup j = c.shared.filesReceiver.lookup j := fun hj => Finmap.lookup_erase_ne hj
  have hnone := lookup_eq_none_of_empty h hempty
  constructor
  · rw [herased]
    exact h.disk
  · intro k
    rw [herased]
    by_cases hk : k = uploadKey e
    · rw [hk,entry_of_none hself,entry_of_none hnone]
    · rw [entry_congr (hother hk)]
      exact h.packets k
  · intro k f hf
    rw [herased] at hf
    by_cases hk : k = uploadKey e
    · rw [hk,hself] at hf
      exact absurd hf (Option.some_ne_none f).symm
    · rw [hother hk] at hf
      exact h.named k f hf
  · exact h.held
  · intro k f hne hf
    have hk : k ≠ uploadKey e := by
      rintro rfl
      exact absurd (hnone.symm.trans hf) (Option.some_ne_none f).symm
    rw [herased,hother hk]
    exact h.kept k f hne hf
  · intro k hpending
    rw [herased]
    by_cases hk : k = uploadKey e
    · rw [hk,hself,hnone]
    · rw [hother hk]
      refine h.settled k (pending_before hpending ?_)
      rw [hcall]
      simpa [UploadCall.pending,hd] using Ne.symm hk

theorem simulates_erase {r : Receipt} (hcall : c.calls i = .received e r)
    (hclean : (UploadCall.received e r).Uninterrupted c.shared) : Simulates (turn uploadStep c i).1 t := by
  cases hd : r.done with
  | false => exact simulates_erase_pending h hcall hd
  | true => exact simulates_erase_done h hcall hd (hclean hd)

end Turn

/-- A call that has returned makes no more steps. -/
theorem turn_returned {c : Config ι Server UploadCall} {i : ι} {r : Receipt} (hcall : c.calls i = .returned r) :
    (turn uploadStep c i).1 = c := by
  have hupdate : Function.update c.calls i (.returned r) = c.calls := by
    rw [← hcall,Function.update_eq_self]
  unfold turn
  rw [hcall]
  exact congrArg (Config.mk c.shared) hupdate

/-! ### Calls for different file names -/

section Names
variable {s s' : Server} {call : UploadCall} {e : Upload} {k : Bytes}

theorem uploadStep_lookup_ne (hcall : ∀ e, call.upload = some e → uploadKey e ≠ k) :
    (uploadStep s call).1.filesReceiver.lookup k = s.filesReceiver.lookup k := by
  cases call with
  | called e => exact Finmap.lookup_insert_of_ne _ (hcall e rfl).symm
  | infoSet e => exact Finmap.lookup_insert_of_ne _ (hcall e rfl).symm
  | received e r =>
    change (s.eraseDone e.1 r).filesReceiver.lookup k = _
    unfold Server.eraseDone
    split
    · exact Finmap.lookup_erase_ne (hcall e rfl).symm
    · rfl
  | returned r => rfl

theorem upload_uploadStep (h : (uploadStep s call).2.1.upload = some e) : call.upload = some e := by
  cases call with
  | called e => exact h
  | infoSet e => exact h
  | received e r => exact absurd h (Option.some_ne_none _).symm
  | returned r => exact h

theorem upload_of_pending (h : call.pending = some k) : ∃ e, call.upload = some e ∧ uploadKey e = k := by
  cases call with
  | called e => exact absurd h (Option.some_ne_none k).symm
  | infoSet e => exact ⟨e,rfl,Option.some.inj h⟩
  | received e r =>
    have hpending : (if r.done then some (uploadKey e) else none) = some k := h
    split at hpending
    · exact ⟨e,rfl,Option.some.inj hpending⟩
    · exact absurd hpending (Option.some_ne_none k).symm
  | returned r => exact absurd h (Option.some_ne_none k).symm

theorem UploadCall.Uninterrupted.congr (hsame : ∀ e, call.upload = some e →
    s'.filesReceiver.lookup (uploadKey e) = s.filesReceiver.lookup (uploadKey e)) (h : call.Uninterrupted s) :
    call.Uninterrupted s' := by
  cases call with
  | called e => trivial
  | infoSet e =>
    have hlookup := hsame e rfl
    change s'.entry (uploadKey e) = opened (s'.holding (uploadKey e)) (fileInfo e.1)
    rw [Server.holding,hlookup,entry_congr hlookup]
    exact h
  | received e r =>
    intro hd
    rw [entry_congr (hsame e rfl)]
    exact h hd
  | returned r => trivial

/-- A look-up that meets no entry without packets is not interrupted by the receive after it. -/
theorem uninterrupted_infoSet
    (hheld : ∀ f, s.filesReceiver.lookup (uploadKey e) = some f → f.filePackets ≠ ∅) :
    (UploadCall.infoSet e).Uninterrupted (s.setFileInfo e.1) := by
  have hself : (s.setFileInfo e.1).filesReceiver.lookup (uploadKey e) =
      some (opened (s.filesReceiver.lookup (uploadKey e)) (fileInfo e.1)) := Finmap.lookup_insert _
  have hpackets : (opened (s.filesReceiver.lookup (uploadKey e)) (fileInfo e.1)).filePackets =
      ((s.filesReceiver.lookup (uploadKey e)).getD {}).filePackets := HxFile.setFileInfo_filePackets ..
  change (s.setFileInfo e.1).entry (uploadKey e) = opened ((s.setFileInfo e.1).holding (uploadKey e)) (fileInfo e.1)
  rw [entry_of_some hself,Server.holding,hself]
  cases hl : s.filesReceiver.lookup (uploadKey e) with
  | none =>
    rw [hl] at hpackets
    rw [Option.filter_some_neg (by simp [hpackets])]
  | some f =>
    rw [hl] at hpackets
    have hne : (opened (some f) (fileInfo e.1)).filePackets ≠ ∅ := hpackets ▸ hheld f hl
    rw [Option.filter_some_pos (by simpa using hne)]
    exact (HxFile.setFileInfo_setFileInfo f ..).symm

theorem uninterrupted_received (s : Server) (e : Upload) :
    (UploadCall.received e (s.receive e.1 e.2).2).Uninterrupted (s.receive e.1 e.2).1 := by
  intro hd
  have hself : (s.receive e.1 e.2).1.filesReceiver.lookup (uploadKey e) =
      some ((s.entry e.1.fileName).receive e.1.filePacketNum e.1.fileContent e.2 s.disk).1 := Finmap.lookup_insert _
  have hdone : ((s.entry e.1.fileName).receive e.1.filePacketNum e.1.fileContent e.2 s.disk).2.2.done = true := hd
  rw [entry_of_some hself]
  rw [HxFile.receive_eq] at hdone ⊢
  exact congrArg HxFile.filePackets (if_pos hdone)

end Names
omit [DecidableEq ι] in
/-- A new call has no effect before its first step. -/
theorem Simulates.of_pending {c c' : Config ι Server UploadCall} {t : Server} (h : Simulates c t)
    (hshared : c'.shared = c.shared) (hpending : ∀ i, (c'.calls i).pending = (c.calls i).pending) : Simulates c' t :=
  ⟨hshared ▸ h.disk,hshared ▸ h.packets,hshared ▸ h.named,h.held,hshared ▸ h.kept,
    fun k hk => hshared ▸ h.settled k fun i => hpending i ▸ hk i⟩

/-- Calls that are never under way for one file name at a time do not interrupt each other. -/
theorem uninterrupted_turn {c : Config ι Server UploadCall} {t : Server} (h : Simulates c t) (i : ι)
    (hclean : ∀ j, (c.calls j).Uninterrupted c.shared)
    (hapart : ∀ j, j ≠ i → ∀ e e', (c.calls i).upload = some e → (c.calls j).upload = some e' →
      uploadKey e ≠ uploadKey e') (j : ι) :
    ((turn uploadStep c i).1.calls j).Uninterrupted (turn uploadStep c i).1.shared := by
  by_cases hj : j = i
  · subst hj
    rw [turn_calls_self,turn_shared]
    cases hcall : c.calls j with
    | called e =>
      refine uninterrupted_infoSet fun f hf => ?_
      have hquiet : ∀ l, (c.calls l).pending ≠ some (uploadKey e) := by
        intro l hl
        by_cases hlj : l = j
        · rw [hlj,hcall] at hl
          exact absurd hl (Option.some_ne_none _).symm
        · obtain ⟨e',he',hkey⟩ := upload_of_pending hl
          exact hapart l hlj e e' (by rw [hcall]; rfl) he' hkey.symm
      exact (h.held _ f ((h.settled _ hquiet).symm.trans hf)).1
    | infoSet e => exact uninterrupted_received c.shared e
    | received e r => trivial
    | returned r => trivial
  · rw [turn_calls_ne _ _ _ hj,turn_shared]
    refine (hclean j).congr fun e' he' => ?_
    exact uploadStep_lookup_ne fun e he => hapart j hj e e' he he'

section Runs
variable (d : Disk) (uploads : ι → Upload)

def uploadStart : Config ι Server UploadCall := ⟨.fresh d,fun i => .called (uploads i)⟩

/-- All three steps of one call in a row. -/
def uploadOf (s : Server) (i : ι) : Server × Receipt := s.upload (uploads i)

abbrev concurrentRun (schedule : List ι) : Config ι Server UploadCall := run uploadStep (uploadStart d uploads) schedule

/-- The results of `receive`, each with its call, in the order of the calls of `receive`. -/
abbrev concurrentReceipts (schedule : List ι) : List (ι × Receipt) :=
  results uploadStep (uploadStart d uploads) schedule

abbrev sequentialRun (order : List ι) : Server := final (uploadOf uploads) (.fresh d) order

abbrev sequentialReceipts (order : List ι) : List (ι × Receipt) := trace (uploadOf uploads) (.fresh d) order

/-- After the schedule everything is as if the calls that have received had run in the given order. -/
structure SerializedBy (schedule order : List ι) : Prop where
  nodup : order.Nodup
  calls : ∀ i, i ∈ order ↔ 2 ≤ schedule.count i
  results : (concurrentReceipts d uploads schedule).Perm (sequentialReceipts d uploads order)
  writes : (concurrentReceipts d uploads schedule).filterMap (fun x => x.2.save) =
    (sequentialReceipts d uploads order).filterMap (fun x => x.2.save)
  /-- No packet is lost. -/
  packets : ∀ k, ((concurrentRun d uploads schedule).shared.entry k).filePackets =
    ((sequentialRun d uploads order).entry k).filePackets
  filesReceiver : (∀ i ∈ schedule, schedule.count i = 3) →
    (concurrentRun d uploads schedule).shared.filesReceiver = (sequentialRun d uploads order).filesReceiver

/-- Where a call is after some turns of its own. -/
def UploadCall.After (e : Upload) : ℕ → UploadCall → Prop
  | 0,call => call = .called e
  | 1,call => call = .infoSet e
  | 2,call => ∃ r, call = .received e r
  | _ + 3,call => ∃ r, call = .returned r

theorem after_uploadStep {e : Upload} {n : ℕ} {s : Server} {call : UploadCall} (h : UploadCall.After e n call) :
    UploadCall.After e (n + 1) (uploadStep s call).2.1 := by
  match n,h with
  | 0,h =>
    obtain rfl : call = .called e := h
    exact rfl
  | 1,h =>
    obtain rfl : call = .infoSet e := h
    exact ⟨_,rfl⟩
  | 2,h =>
    obtain ⟨r,rfl⟩ := h
    exact ⟨r,rfl⟩
  | n + 3,h =>
    obtain ⟨r,rfl⟩ := h
    exact ⟨r,rfl⟩

omit [DecidableEq ι] in
theorem simulates_fresh (calls : ι → UploadCall) : Simulates ⟨.fresh d,calls⟩ (.fresh d) where
  disk := rfl
  packets _ := rfl
  named k f hf := absurd ((Finmap.lookup_empty k).symm.trans hf) (Option.some_ne_none f).symm
  held k f hf := absurd ((Finmap.lookup_empty k).symm.trans hf) (Option.some_ne_none f).symm
  kept _ _ _ hf := hf
  settled _ _ := rfl

/-- The next turn of a call, told by the number of its turns so far. -/
theorem simulates_turn {c : Config ι Server UploadCall} {t : Server} (h : Simulates c t) {i : ι} {n : ℕ}
    (hafter : UploadCall.After (uploads i) n (c.calls i)) (hclean : (c.calls i).Uninterrupted c.shared) :
    if n = 1 then Simulates (turn uploadStep c i).1 (uploadOf uploads t i).1 ∧
        (turn uploadStep c i).2 = some (uploadOf uploads t i).2
      else Simulates (turn uploadStep c i).1 t ∧ (turn uploadStep c i).2 = none := by
  match n,hafter with
  | 0,hcall =>
    exact ⟨simulates_setFileInfo h hcall,by rw [turn_result,show c.calls i = _ from hcall]; rfl⟩
  | 1,hcall =>
    rw [show c.calls i = _ from hcall] at hclean
    exact simulates_receive h hcall hclean
  | 2,hcall =>
    obtain ⟨r,hcall⟩ := hcall
    rw [hcall] at hclean
    exact ⟨simulates_erase h hcall hclean,by rw [turn_result,hcall]; rfl⟩
  | n + 3,hcall =>
    obtain ⟨r,hcall⟩ := hcall
    rw [if_neg (by omega),turn_returned hcall,turn_result,hcall]
    exact ⟨h,rfl⟩

/-- Every step of the schedule meets the map as if no other call were under way for its file name. -/
def Uninterrupted (schedule : List ι) : Prop :=
  Throughout uploadStep (uploadStart d uploads) (fun c i => (c.calls i).Uninterrupted c.shared) schedule

/-- The calls that have received so far, one after the other, explain the run. -/
structure Explained (schedule : List ι) (c : Config ι Server UploadCall) (rs : List (ι × Receipt)) : Prop where
  calls : ∀ i, UploadCall.After (uploads i) (schedule.count i) (c.calls i)
  trace : trace (uploadOf uploads) (.fresh d) (rs.map Prod.fst) = rs
  simulates : Simulates c (final (uploadOf uploads) (.fresh d) (rs.map Prod.fst))
  nodup : (rs.map Prod.fst).Nodup
  mem : ∀ i, i ∈ rs.map Prod.fst ↔ 2 ≤ schedule.count i

theorem explained_turn {schedule : List ι} {c : Config ι Server UploadCall} {rs : List (ι × Receipt)} {i : ι}
    (h : Explained d uploads schedule c rs) (hclean : (c.calls i).Uninterrupted c.shared) :
    Explained d uploads (schedule ++ [i]) (turn uploadStep c i).1
      (rs ++ ((turn uploadStep c i).2.map fun o => (i,o)).toList) := by
  have hcount : ∀ j, (schedule ++ [i]).count j = schedule.count j + if j = i then 1 else 0 := by
    intro j
    rw [List.count_append,List.count_singleton]
    by_cases hj : j = i
    · simp [hj]
    · simp [hj,Ne.symm hj]
  have hcalls : ∀ j, UploadCall.After (uploads j) ((schedule ++ [i]).count j) ((turn uploadStep c i).1.calls j) := by
    intro j
    rw [hcount]
    by_cases hj : j = i
    · subst hj
      rw [if_pos rfl,turn_calls_self]
      exact after_uploadStep (h.calls j)
    · rw [if_neg hj,turn_calls_ne _ _ _ hj]
      exact h.calls j
  have hturn := simulates_turn uploads h.simulates (h.calls i) hclean
  by_cases hn : schedule.count i = 1
  · rw [if_pos hn] at hturn
    obtain ⟨hsim,hresult⟩ := hturn
    have hnew : i ∉ rs.map Prod.fst := by
      rw [h.mem i]
      omega
    rw [hresult]
    refine ⟨hcalls,?_,?_,?_,fun j => ?_⟩
    · simp [trace_append,h.trace]
    · simpa [final_append] using hsim
    · simpa [List.nodup_append] using ⟨h.nodup,fun a b hab ha => hnew (ha ▸ List.mem_map_of_mem hab)⟩
    · rw [hcount]
      by_cases hj : j = i
      · simp [hj,hn]
      · simpa [hj] using h.mem j
  · rw [if_neg hn] at hturn
    obtain ⟨hsim,hresult⟩ := hturn
    rw [hresult,Option.map_none,Option.toList_none,List.append_nil]
    refine ⟨hcalls,h.trace,hsim,h.nodup,fun j => ?_⟩
    rw [h.mem j,hcount]
    by_cases hj : j = i
    · subst hj
      rw [if_pos rfl]
      omega
    · rw [if_neg hj,Nat.add_zero]

/-- A schedule without interruptions is as good as one call after the other, at every point of it. -/
theorem uninterrupted_serialized (schedule : List ι) (hclean : Uninterrupted d uploads schedule) :
    ∃ order, SerializedBy d uploads schedule order := by
  have h : Explained d uploads schedule (concurrentRun d uploads schedule) (concurrentReceipts d uploads schedule) := by
    refine invariant_run _ _ ⟨fun _ => rfl,rfl,simulates_fresh d _,List.nodup_nil,fun i => by simp⟩ ?_ hclean
    exact fun _ _ _ _ hbefore hcond => explained_turn d uploads hbefore hcond
  refine ⟨(concurrentReceipts d uploads schedule).map Prod.fst,h.nodup,h.mem,?_,?_,h.simulates.packets,fun hall => ?_⟩
  · rw [sequentialReceipts,h.trace]
  · rw [sequentialReceipts,h.trace]
  · apply Finmap.ext_lookup
    intro k
    refine h.simulates.settled k (fun i => ?_)
    have hafter := h.calls i
    by_cases hi : i ∈ schedule
    · rw [hall i hi] at hafter
      obtain ⟨r,hr⟩ := hafter
      rw [hr]
      exact (Option.some_ne_none k).symm
    · rw [List.count_eq_zero.mpr hi] at hafter
      rw [show (concurrentRun d uploads schedule).calls i = _ from hafter]
      exact (Option.some_ne_none k).symm

end Runs
end Calls

def packetOf (num total : Int32) (content : Bytes) : Upload :=
  ({ mapName := utf8 "m", fileName := utf8 "f", fileContent := content, filePacketNum := num,
     filePacketTotal := total },{})

def twoPackets (b : Bool) : Upload := if b then packetOf 1 2 [2] else packetOf 0 2 [1]

theorem uninterrupted_serialized_twoPackets :
    ∃ order, SerializedBy .blank twoPackets [false,true,false,true,false,true] order :=
  uninterrupted_serialized .blank twoPackets _ (by unfold Uninterrupted Throughout; decide +kernel)

/-- A file of one packet and the first packet of two of its next version. -/
def nextVersion (b : Bool) : Upload := if b then packetOf 0 2 [2] else packetOf 0 1 [1]

/-- The first packet of the next version comes before the entry of the finished file is erased. -/
theorem completes_twice : ¬ ∀ (d : Disk) (uploads : Bool → Upload) (schedule : List Bool),
    (∀ i, (uploads i).2 = {}) → (∀ i ∈ schedule, schedule.count i = 3) →
    ∃ order, SerializedBy d uploads schedule order := by
  intro h
  obtain ⟨order,hnodup,hcalls,hresults,-,-,-⟩ := h .blank nextVersion [false,false,true,true,false,true]
    (fun i => by cases i <;> rfl) (by decide)
  have horder : order.Perm [false,true] := by
    refine (List.perm_ext_iff_of_nodup hnodup (by decide)).mpr (fun i => ?_)
    rw [hcalls i]
    revert i
    decide
  have hcases : ∀ i j, [i,j].Perm [false,true] →
      ¬ (concurrentReceipts .blank nextVersion [false,false,true,true,false,true]).Perm
        (sequentialReceipts .blank nextVersion [i,j]) := by decide +kernel
  obtain ⟨i,j,rfl⟩ := List.length_eq_two.mp horder.length_eq
  exact hcases i j horder hresults

end FDemo.MapServer
