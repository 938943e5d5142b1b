import FDemo.Foundation.Interleave
import FDemo.MapServer.Completion
import FDemo.MapServer.FullUpload
import FDemo.MapServer.Transfers

/-! # Two uploads at the same time

Pending packets are collected under the file name alone. Uploads of different
file names have an entry each, and meet only when both names lead to one file.
Uploads of one file name into two maps share an entry: each save consumes as many
packets as its total says, so both files can only be saved whole when one upload
follows the other.
-/
namespace FDemo.MapServer
open Packet Mealy

def NoSeparator (name : Bytes) : Prop := (0x2F : UInt8) ∉ name ∧ (0x5C : UInt8) ∉ name

/-- Both files are whole and nothing is pending. -/
structure Undisturbed (d : Disk) (u v : FullUpload) (ws : List File) : Prop where
  left : ((Server.fresh d).run (ws.map succeeding)).disk.files u.info.place = some u.content
  right : ((Server.fresh d).run (ws.map succeeding)).disk.files v.info.place = some v.content
  filesReceiver : ((Server.fresh d).run (ws.map succeeding)).filesReceiver = ∅

namespace FullUpload

theorem fileName_of_mem (u : FullUpload) {w : File} (hw : w ∈ u.packets) : w.fileName = u.fileName :=
  congrArg FileInfo.fileName (u.info_of_mem hw)

theorem mapName_of_mem (u : FullUpload) {w : File} (hw : w ∈ u.packets) : w.mapName = u.mapName :=
  congrArg FileInfo.mapName (u.info_of_mem hw)

theorem run_fresh (u : FullUpload) (d : Disk) :
    ((Server.fresh d).run (u.packets.map succeeding)).filesReceiver = ∅ ∧
    ((Server.fresh d).run (u.packets.map succeeding)).disk.files =
      Function.update d.files u.info.place (some u.content) := by
  have hk : ∀ e ∈ u.packets.map succeeding, uploadKey e = u.fileName := fun e he => u.uploadKey_of_mem he
  have hnone : ∀ k, (Server.fresh d).filesReceiver.lookup k = none := fun k => Finmap.lookup_empty k
  constructor
  · apply Finmap.ext_lookup
    intro k
    rw [run_lookup,hnone,Finmap.lookup_empty]
    by_cases hkey : k = u.fileName
    · rw [hkey,packetsOf_eq_self hk]
      exact u.transfer.completed.1
    · rw [packetsOf_eq_nil hk hkey]
      rfl
  · funext p
    rw [run_files,writesTo_eq,receipts_eq_trace _ hk,hnone,u.transfer.completed.2,u.bytes_eq]
    by_cases hp : u.info.place = p
    · subst hp
      simp [FileInfo.place]
    · have hp' : fileAt u.info.fullPath ≠ p := hp
      simp [hp',Function.update_of_ne (Ne.symm hp),Server.fresh]

theorem run_eq_fresh (u : FullUpload) (d : Disk) : (Server.fresh d).run (u.packets.map succeeding) =
    Server.fresh ((Server.fresh d).run (u.packets.map succeeding)).disk := by
  have hnone := (u.run_fresh d).1
  generalize (Server.fresh d).run (u.packets.map succeeding) = s at hnone
  obtain ⟨m,disk⟩ := s
  subst hnone
  rfl

theorem writesTo_fresh (u : FullUpload) (d : Disk) :
    writesTo u.info.place ((Server.fresh d).receipts (u.packets.map succeeding)) = [u.content] := by
  have hk : ∀ e ∈ u.packets.map succeeding, uploadKey e = u.fileName := fun e he => u.uploadKey_of_mem he
  have hnone : (Server.fresh d).filesReceiver.lookup u.fileName = none := Finmap.lookup_empty _
  rw [writesTo_eq,receipts_eq_trace _ hk,hnone,u.transfer.completed.2,u.bytes_eq]
  simp [FileInfo.place]

end FullUpload

theorem zero_mem_numbers {u : FullUpload} {xs ys : List File} (h : u.packets = xs ++ ys) (hne : xs ≠ []) :
    0 ∈ numbers xs := by
  obtain ⟨x,xs,rfl⟩ := List.exists_cons_of_ne_nil hne
  have hpos := List.length_pos_of_ne_nil u.chunks_ne_nil
  have hhead : u.packets.head? = some (u.packet 0) := by
    rw [FullUpload.packets,List.head?_map,List.head?_range,if_neg (by omega)]
    rfl
  rw [h] at hhead
  obtain rfl : x = u.packet 0 := by simpa using hhead
  exact List.mem_cons_self

/-- The receipt of a save of the file `p`. -/
def SavesTo (p : Place) (r : Receipt) : Prop := ∃ path bytes, r = .saved path bytes ∧ fileAt path = p

theorem exists_save {d : Disk} {es : List Upload} {p : Place} (hd : d.files p = none)
    (h : ((Server.fresh d).run es).disk.files p ≠ none) :
    ∃ pre e post, es = pre ++ e :: post ∧ SavesTo p (((Server.fresh d).run pre).upload e).2 := by
  have hwrites : writesTo p ((Server.fresh d).receipts es) ≠ [] := by
    intro hnil
    rw [run_files,hnil] at h
    exact h hd
  obtain ⟨bytes,hbytes⟩ := List.exists_mem_of_ne_nil _ hwrites
  obtain ⟨x,hx,hsaved⟩ := List.mem_filterMap.mp hbytes
  obtain ⟨pre,post,rfl,hout⟩ := mem_trace Server.upload hx
  refine ⟨pre,x.1,post,rfl,?_⟩
  rw [← hout]
  rw [savedAt_eq] at hsaved
  obtain ⟨⟨path,written⟩,hsave,hplace⟩ := Option.bind_eq_some_iff.mp hsaved
  refine ⟨path,written,?_,?_⟩
  · revert hsave
    cases x.2 <;> simp [Receipt.save]
  · by_contra hne
    rw [if_neg hne] at hplace
    exact Option.some_ne_none _ hplace.symm

theorem run_done_fresh {d : Disk} {k : Bytes} {pre : List Upload} {e : Upload}
    (hk : ∀ x ∈ pre ++ [e], uploadKey x = k)
    (hdone : (((Server.fresh d).run pre).upload e).2.done = true) :
    (Server.fresh d).run (pre ++ [e]) = Server.fresh ((Server.fresh d).run (pre ++ [e])).disk := by
  have hnone : ∀ j, (Server.fresh d).filesReceiver.lookup j = none := fun j => Finmap.lookup_empty j
  have hreceiver : ((Server.fresh d).run (pre ++ [e])).filesReceiver = ∅ := by
    apply Finmap.ext_lookup
    intro j
    rw [Finmap.lookup_empty]
    by_cases hj : j = k
    · subst hj
      have hstep : (Server.fresh d).run (pre ++ [e]) = (((Server.fresh d).run pre).upload e).1 :=
        run_append _ pre [e]
      rw [hstep]
      rw [upload_eq] at hdone ⊢
      rw [← hk e (by simp),lookup_setEntry]
      exact entryStep_of_done hdone
    · rw [run_lookup,packetsOf_eq_nil hk hj,hnone]
      rfl
  generalize (Server.fresh d).run (pre ++ [e]) = s at hreceiver
  obtain ⟨m,disk⟩ := s
  subst hreceiver
  rfl

section OneName
variable {u v : FullUpload} (hname : u.fileName = v.fileName) (hplace : u.info.place ≠ v.info.place)
include hname hplace

theorem mapName_ne : u.mapName ≠ v.mapName := by
  intro hmap
  apply hplace
  simp only [FileInfo.place,FileInfo.fullPath,FullUpload.info,hname,hmap]

/-- Saving the file of `u` takes one of its packets and as many packet numbers as it has chunks. -/
theorem le_card_of_save {d : Disk} {es : List Upload} {e : Upload}
    (hmem : ∀ x ∈ es ++ [e], x.1 ∈ u.packets ∨ x.1 ∈ v.packets)
    (hsaved : SavesTo u.info.place (((Server.fresh d).run es).upload e).2) :
    (∃ x ∈ es ++ [e], x.1 ∈ u.packets) ∧
      u.chunks.length ≤ (numbers ((es ++ [e]).map Prod.fst)).toFinset.card := by
  have hkey : uploadKey e = u.fileName := by
    rcases hmem e (by simp) with he | he
    · exact u.fileName_of_mem he
    · exact (v.fileName_of_mem he).trans hname.symm
  obtain ⟨path,bytes,hsaved,hpath⟩ := hsaved
  rw [upload_outcome] at hsaved
  obtain ⟨hfull,-,-,hout⟩ := HxFile.outcome_done (by rw [hsaved]; rfl)
  obtain ⟨rfl,-⟩ := Receipt.saved.inj (hout.symm.trans hsaved)
  obtain ⟨x,hx,hxmap,hxtotal⟩ := storing_info d es e
  have hxu : x.1 ∈ u.packets := by
    rcases hmem x hx with h | h
    · exact h
    · have hentry : (((Server.fresh d).run es).storing e).fullPath = v.info.fullPath := by
        rw [HxFile.fullPath,hxmap,v.mapName_of_mem h,storing_fileName,hkey,hname]
        rfl
      exact absurd (hpath.symm.trans (congrArg fileAt hentry)) hplace
  refine ⟨⟨x,hx,hxu⟩,?_⟩
  have htotal : (((Server.fresh d).run es).storing e).filePacketTotal = u.info.filePacketTotal :=
    hxtotal.trans (congrArg FileInfo.filePacketTotal (u.info_of_mem hxu))
  have hlen := u.toInt_total
  have hcard := Finset.card_le_card (keys_storing_subset d es e)
  unfold HxFile.Full at hfull
  rw [htotal,sizeOfInt_of_nonneg (by omega)] at hfull
  omega

theorem sequential_of_nodup {ws first rest : List File} (hws : Interleave u.packets v.packets ws)
    (hsplit : ws = first ++ rest) (hlen : first.length = u.chunks.length) (hnodup : (numbers first).Nodup)
    (hu : ∃ x ∈ first, x ∈ u.packets) : ws = u.packets ++ v.packets := by
  subst hsplit
  obtain ⟨xs,xs',ys,ys',hxs,hys,hfirst,hrest⟩ := hws.split
  have hnumbers : (numbers (xs ++ ys)).Nodup := (hfirst.perm.map File.filePacketNum).nodup_iff.mpr hnodup
  have hne : xs ≠ [] := by
    rintro rfl
    obtain ⟨x,hx,hxu⟩ := hu
    have hxv : x ∈ v.packets := by
      rw [hys]
      exact List.mem_append_left _ (hfirst.perm.mem_iff.mpr hx)
    exact mapName_ne hname hplace ((u.mapName_of_mem hxu).symm.trans (v.mapName_of_mem hxv))
  have hysnil : ys = [] := by
    by_contra hysne
    rw [numbers,List.map_append] at hnumbers
    exact List.disjoint_of_nodup_append hnumbers (zero_mem_numbers hxs hne) (zero_mem_numbers hys hysne)
  subst hysnil
  have hfirst' := hfirst.eq_of_nil_right
  have hxs' : xs' = [] := by
    have hl := congrArg List.length hxs
    rw [u.length_packets,List.length_append,← hfirst',hlen] at hl
    exact List.length_eq_zero_iff.mp (by omega)
  subst hxs'
  rw [hrest.eq_of_nil_left,hfirst',hxs,hys]
  simp

/-- Both files are saved only when the uploads do not overlap. -/
theorem sequential_of_saves {d : Disk} {ws : List File} (hws : Interleave u.packets v.packets ws)
    {pre mid post : List Upload} {e e' : Upload}
    (hsplit : ws.map succeeding = (pre ++ [e]) ++ (mid ++ e' :: post))
    (hu : SavesTo u.info.place (((Server.fresh d).run pre).upload e).2)
    (hv : SavesTo v.info.place (((Server.fresh d).run ((pre ++ [e]) ++ mid)).upload e').2) :
    ws = u.packets ++ v.packets := by
  have hmem : ∀ x ∈ ws.map succeeding, x.1 ∈ u.packets ∨ x.1 ∈ v.packets := by
    intro x hx
    obtain ⟨w,hw,rfl⟩ := List.mem_map.mp hx
    exact List.mem_append.mp (hws.perm.mem_iff.mpr hw)
  rw [hsplit] at hmem
  have hkey : ∀ x ∈ pre ++ [e], uploadKey x = u.fileName := by
    intro x hx
    rcases hmem x (List.mem_append_left _ hx) with h | h
    · exact u.fileName_of_mem h
    · exact (v.fileName_of_mem h).trans hname.symm
  -- the first save leaves the server fresh, so the second one counts from there
  have hfresh := run_done_fresh hkey (by obtain ⟨path,bytes,hsaved,-⟩ := hu; rw [hsaved]; rfl)
  have hrun : (Server.fresh d).run ((pre ++ [e]) ++ mid) = ((Server.fresh d).run (pre ++ [e])).run mid :=
    run_append _ _ _
  rw [hrun,hfresh] at hv
  obtain ⟨⟨x,hx,hxu⟩,hn⟩ := le_card_of_save hname hplace (fun x hx => hmem x (List.mem_append_left _ hx)) hu
  obtain ⟨-,hm⟩ := le_card_of_save hname.symm hplace.symm
    (fun x hx => (hmem x (by simp only [List.mem_append,List.mem_cons] at hx ⊢; tauto)).symm) hv
  have hwlen := hws.perm.length_eq
  have hslen := congrArg List.length hsplit
  have hcard := List.toFinset_card_le (numbers ((pre ++ [e]).map Prod.fst))
  have hcard' := List.toFinset_card_le (numbers ((mid ++ [e']).map Prod.fst))
  simp only [numbers,List.length_map,List.length_append,List.length_cons,List.length_nil,
    FullUpload.length_packets] at hwlen hslen hcard hcard' hn hm
  have hfst : ws = (pre ++ [e]).map Prod.fst ++ (mid ++ e' :: post).map Prod.fst := by
    have hfirsts := congrArg (List.map Prod.fst) hsplit
    rw [List.map_append,List.map_map] at hfirsts
    exact (List.map_id ws).symm.trans hfirsts
  have hdistinct : (numbers ((pre ++ [e]).map Prod.fst)).toFinset.card =
      (numbers ((pre ++ [e]).map Prod.fst)).length := by
    simp only [numbers,List.length_map,List.length_append,List.length_cons,List.length_nil]
    omega
  exact sequential_of_nodup hname hplace hws hfst (by simp; omega)
    (Multiset.coe_nodup.mp (Multiset.toFinset_card_eq_card_iff_nodup.mp hdistinct))
    ⟨x.1,List.mem_map_of_mem hx,hxu⟩

theorem sequential_of_later {d : Disk} {ws : List File} (hws : Interleave u.packets v.packets ws)
    {pre post pre' post' as : List Upload} {e e' : Upload} (hsplit : ws.map succeeding = pre ++ e :: post)
    (hu : SavesTo u.info.place (((Server.fresh d).run pre).upload e).2)
    (hv : SavesTo v.info.place (((Server.fresh d).run pre').upload e').2)
    (hpre : pre' = pre ++ as) (hrest : e :: post = as ++ e' :: post') : ws = u.packets ++ v.packets := by
  subst hpre
  cases as with
  | nil =>
    obtain ⟨rfl,-⟩ := List.cons_eq_cons.mp hrest
    obtain ⟨path,bytes,hsaved,hpath⟩ := hu
    obtain ⟨path',bytes',hsaved',hpath'⟩ := hv
    rw [List.append_nil,hsaved] at hsaved'
    obtain ⟨rfl,-⟩ := Receipt.saved.inj hsaved'
    exact absurd (hpath.symm.trans hpath') hplace
  | cons a as =>
    obtain ⟨rfl,rfl⟩ := List.cons_eq_cons.mp hrest
    have hlater : SavesTo v.info.place (((Server.fresh d).run ((pre ++ [e]) ++ as)).upload e').2 := by
      simpa using hv
    exact sequential_of_saves hname hplace hws (by simpa using hsplit) hu hlater

end OneName

theorem transfers_of_fileName_ne {u v : FullUpload} (hname : u.fileName ≠ v.fileName)
    (happart : u.info.place ≠ v.info.place ∨ u.content = v.content) {ws : List File}
    (hws : Interleave u.packets v.packets ws) :
    Transfers (fun k => if k = u.fileName then u.info else v.info) ws ∧
      named u.fileName ws = u.packets ∧ named v.fileName ws = v.packets := by
  have hleft : named u.fileName ws = u.packets :=
    hws.filter_left (fun w hw => by simpa using u.fileName_of_mem hw)
      (fun w hw => by simpa [v.fileName_of_mem hw] using hname.symm)
  have hright : named v.fileName ws = v.packets :=
    hws.symm.filter_left (fun w hw => by simpa using v.fileName_of_mem hw)
      (fun w hw => by simpa [u.fileName_of_mem hw] using hname)
  have hcases : ∀ w ∈ ws, w.fileName = u.fileName ∨ w.fileName = v.fileName := by
    intro w hw
    rcases List.mem_append.mp (hws.perm.mem_iff.mpr hw) with h | h
    · exact Or.inl (u.fileName_of_mem h)
    · exact Or.inr (v.fileName_of_mem h)
  refine ⟨⟨fun w hw => ?_,fun w hw w' hw' heq => ?_⟩,hleft,hright⟩
  · rcases hcases w hw with h | h
    · simpa [h,hleft] using u.transfer
    · simpa [h,hright,hname.symm] using v.transfer
  · have hsame : u.info.place = v.info.place → u.content = v.content := fun hplace => happart.resolve_left (· hplace)
    rcases hcases w hw with h | h <;> rcases hcases w' hw' with h' | h'
    · rw [h,h']
    · simp only [h,h',hname.symm,↓reduceIte,hleft,hright,u.bytes_eq,v.bytes_eq] at heq ⊢
      exact hsame heq
    · simp only [h,h',hname.symm,↓reduceIte,hleft,hright,u.bytes_eq,v.bytes_eq] at heq ⊢
      exact (hsame heq.symm).symm
    · rw [h,h']

theorem undisturbed_append {u v : FullUpload} (happart : u.info.place ≠ v.info.place ∨ u.content = v.content)
    (d : Disk) : Undisturbed d u v (u.packets ++ v.packets) := by
  obtain ⟨hnone,hfiles⟩ := u.run_fresh d
  have hfresh := u.run_eq_fresh d
  have hrun : (Server.fresh d).run ((u.packets ++ v.packets).map succeeding) =
      ((Server.fresh d).run (u.packets.map succeeding)).run (v.packets.map succeeding) := by
    rw [List.map_append]
    exact run_append _ _ _
  obtain ⟨hnone',hfiles'⟩ := v.run_fresh ((Server.fresh d).run (u.packets.map succeeding)).disk
  rw [← hfresh,← hrun] at hnone' hfiles'
  refine ⟨?_,?_,hnone'⟩
  · rw [hfiles',hfiles]
    rcases happart with hplace | hcontent
    · simp [Function.update_of_ne hplace]
    · simp [hcontent,Function.update_apply]
  · rw [hfiles']
    simp

theorem Undisturbed.symm {d : Disk} {u v : FullUpload} {ws : List File} (h : Undisturbed d u v ws) :
    Undisturbed d v u ws := ⟨h.right,h.left,h.filesReceiver⟩

/-- The uploads go to two files, or carry the same content; and their file names differ, or one upload
follows the other. -/
def Apart (u v : FullUpload) (ws : List File) : Prop :=
  (u.info.place ≠ v.info.place ∨ u.content = v.content) ∧
    (u.fileName ≠ v.fileName ∨ ws = u.packets ++ v.packets ∨ ws = v.packets ++ u.packets)

theorem undisturbed_of_apart {u v : FullUpload} {ws : List File} (hws : Interleave u.packets v.packets ws)
    (h : Apart u v ws) (d : Disk) : Undisturbed d u v ws := by
  obtain ⟨happart,hname | rfl | rfl⟩ := h
  · obtain ⟨htransfers,hleft,hright⟩ := transfers_of_fileName_ne hname happart hws
    obtain ⟨w,hw⟩ := List.exists_mem_of_ne_nil _ u.transfer.ne_nil
    obtain ⟨w',hw'⟩ := List.exists_mem_of_ne_nil _ v.transfer.ne_nil
    have hfw := u.fileName_of_mem hw
    have hfw' := v.fileName_of_mem hw'
    have hfiles := htransfers.files_eq d (hws.perm.mem_iff.mp (List.mem_append_left _ hw))
    have hfiles' := htransfers.files_eq d (hws.perm.mem_iff.mp (List.mem_append_right _ hw'))
    simp only [hfw,hleft,↓reduceIte,u.bytes_eq] at hfiles
    simp only [hfw',hright,hname.symm,↓reduceIte,v.bytes_eq] at hfiles'
    exact ⟨hfiles,hfiles',htransfers.filesReceiver_eq d⟩
  · exact undisturbed_append happart d
  · exact (undisturbed_append (happart.imp Ne.symm Eq.symm) d).symm

theorem apart_of_undisturbed {u v : FullUpload} {ws : List File} (hws : Interleave u.packets v.packets ws)
    (hplace : u.info.place ≠ v.info.place) (h : Undisturbed .blank u v ws) : Apart u v ws := by
  refine ⟨Or.inl hplace,or_iff_not_imp_left.mpr fun hname => ?_⟩
  have hname := not_not.mp hname
  obtain ⟨hu,hv,-⟩ := h
  obtain ⟨pre,e,post,hsplit,hsave⟩ := exists_save (d := .blank) rfl (by rw [hu]; simp)
  obtain ⟨pre',e',post',hsplit',hsave'⟩ := exists_save (d := .blank) rfl (by rw [hv]; simp)
  rcases List.append_eq_append_iff.mp (hsplit.symm.trans hsplit') with ⟨as,hpre,hrest⟩ | ⟨as,hpre,hrest⟩
  · exact Or.inl (sequential_of_later hname hplace hws hsplit hsave hsave' hpre hrest)
  · exact Or.inr (sequential_of_later hname.symm hplace.symm hws.symm hsplit' hsave' hsave hpre hrest)

/-- Two uploads leave each other alone when they are apart, and only then. The exception is one content that
is sent twice under one file name, to maps that lead to one file: other orders may keep it too. -/
theorem uploads_undisturbed_iff (u v : FullUpload) (ws : List File) (hws : Interleave u.packets v.packets ws) :
    (Apart u v ws → ∀ d, Undisturbed d u v ws) ∧
    ((u.info.place = v.info.place → u.fileName = v.fileName → u.content ≠ v.content) →
      ((∀ d, Undisturbed d u v ws) ↔ Apart u v ws)) := by
  refine ⟨undisturbed_of_apart hws,fun htwo => ⟨fun h => ?_,undisturbed_of_apart hws⟩⟩
  by_cases hplace : u.info.place = v.info.place
  · obtain ⟨hu,hv,-⟩ := h .blank
    rw [← hplace,hu] at hv
    have hcontent := Option.some.inj hv
    exact ⟨Or.inr hcontent,Or.inl fun hname => htwo hplace hname hcontent⟩
  · exact apart_of_undisturbed hws hplace (h .blank)

def uploadA : FullUpload := twoChunks (utf8 "a") (by decide) [1] [2]
def uploadB : FullUpload := twoChunks (utf8 "b") (by decide) [3] [4]

def inTurn : List File := [uploadA.packet 0,uploadB.packet 0,uploadA.packet 1,uploadB.packet 1]

theorem interleave_inTurn : Interleave uploadA.packets uploadB.packets inTurn :=
  .left (.right (.left (.right .nil)))

theorem uploads_undisturbed_iff_inTurn : (Apart uploadA uploadB inTurn → ∀ d, Undisturbed d uploadA uploadB inTurn) ∧
    ((uploadA.info.place = uploadB.info.place → uploadA.fileName = uploadB.fileName → uploadA.content ≠ uploadB.content) →
      ((∀ d, Undisturbed d uploadA uploadB inTurn) ↔ Apart uploadA uploadB inTurn)) :=
  uploads_undisturbed_iff uploadA uploadB inTurn interleave_inTurn

theorem uploads_in_turn_disturbed : ¬ ∀ (u v : FullUpload), NoSeparator u.mapName → NoSeparator u.fileName →
    NoSeparator v.mapName → NoSeparator v.fileName → (u.mapName,u.fileName) ≠ (v.mapName,v.fileName) →
    ∀ ws, Interleave u.packets v.packets ws → ∀ d, Undisturbed d u v ws := by
  intro h
  have hleft := (h uploadA uploadB ⟨by decide,by decide⟩ ⟨by decide,by decide⟩ ⟨by decide,by decide⟩
    ⟨by decide,by decide⟩ (by decide) inTurn interleave_inTurn .blank).left
  exact absurd hleft (by decide +kernel)

end FDemo.MapServer
