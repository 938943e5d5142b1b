import FDemo.Foundation.Overtaking
import FDemo.MapServer.TwoUploads

/-! # Two uploads of the same file

Both uploads share the one entry of their file name. It counts packet numbers,
and a later packet replaces an earlier one with its number, so what is saved can
be made of both contents. When that is ruled out for all contents depends only
on the order in which the packets arrive.
-/
namespace FDemo.MapServer
open Packet Mealy Collector

/-- An order in which two uploads of `left` and `right` packets can arrive; `inl k` is packet `k` of the
first upload and `inr k` that of the second. -/
structure PacketOrder where
  left : ℕ
  right : ℕ
  left_pos : 0 < left
  right_pos : 0 < right
  left_lt : left < 2 ^ 31
  right_lt : right < 2 ^ 31
  order : List (ℕ ⊕ ℕ)
  interleave : Interleave ((List.range left).map Sum.inl) ((List.range right).map Sum.inr) order

/-- The packet that an item of the order stands for. -/
def sent (u v : FullUpload) : ℕ ⊕ ℕ → File := Sum.elim u.packet v.packet

namespace PacketOrder

def number : ℕ ⊕ ℕ → ℕ := Sum.elim id id

def size (o : PacketOrder) : ℕ ⊕ ℕ → ℕ := Sum.elim (fun _ => o.left) (fun _ => o.right)

/-- One upload comes before the other, or both have equally many packets and one overtakes the other. -/
def Unmixed (o : PacketOrder) : Prop :=
  (o.order = (List.range o.left).map Sum.inl ++ (List.range o.right).map Sum.inr ∨
    o.order = (List.range o.right).map Sum.inr ++ (List.range o.left).map Sum.inl) ∨
  o.left = o.right ∧ (Overtakes o.order o.left Sum.inl Sum.inr ∨ Overtakes o.order o.left Sum.inr Sum.inl)

/-- Two uploads of different contents to one target that can be sent in this order. -/
structure Fits (o : PacketOrder) (u v : FullUpload) : Prop where
  left : u.chunks.length = o.left
  right : v.chunks.length = o.right
  mapName : u.mapName = v.mapName
  fileName : u.fileName = v.fileName
  content : u.content ≠ v.content

def packets (o : PacketOrder) (u v : FullUpload) : List File := o.order.map (sent u v)

end PacketOrder

/-- The file only ever holds one of the two contents, and does so at the end. -/
structure NeverMixed (d : Disk) (u v : FullUpload) (ws : List File) : Prop where
  writes : ∀ bytes ∈ writesTo u.info.place ((Server.fresh d).receipts (ws.map succeeding)),
    bytes = u.content ∨ bytes = v.content
  final : ((Server.fresh d).run (ws.map succeeding)).disk.files u.info.place = some u.content ∨
    ((Server.fresh d).run (ws.map succeeding)).disk.files u.info.place = some v.content

theorem neverMixed_of_writes {d : Disk} {u v : FullUpload} {ws : List File}
    (hne : writesTo u.info.place ((Server.fresh d).receipts (ws.map succeeding)) ≠ [])
    (hwrites : ∀ bytes ∈ writesTo u.info.place ((Server.fresh d).receipts (ws.map succeeding)),
      bytes = u.content ∨ bytes = v.content) : NeverMixed d u v ws := by
  refine ⟨hwrites,?_⟩
  rw [run_files,List.getLast?_eq_some_getLast hne]
  rcases hwrites _ (List.getLast_mem hne) with hlast | hlast
  · exact Or.inl (by rw [hlast]; rfl)
  · exact Or.inr (by rw [hlast]; rfl)

theorem NeverMixed.symm {d : Disk} {u v : FullUpload} {ws : List File} (hplace : u.info.place = v.info.place)
    (h : NeverMixed d u v ws) : NeverMixed d v u ws := by
  obtain ⟨hwrites,hfinal⟩ := h
  rw [hplace] at hwrites hfinal
  exact ⟨fun bytes hb => (hwrites bytes hb).symm,hfinal.symm⟩

theorem neverMixed_append {u v : FullUpload} (hplace : u.info.place = v.info.place) (d : Disk) :
    NeverMixed d u v (u.packets ++ v.packets) := by
  have hwrites : writesTo u.info.place ((Server.fresh d).receipts ((u.packets ++ v.packets).map succeeding)) =
      [u.content,v.content] := by
    have hfirst := u.writesTo_fresh d
    have hsecond := v.writesTo_fresh ((Server.fresh d).run (u.packets.map succeeding)).disk
    rw [← hplace] at hsecond
    rw [List.map_append,receipts_append,u.run_eq_fresh d]
    unfold writesTo at hfirst hsecond ⊢
    rw [List.filterMap_append,hfirst,hsecond]
    rfl
  refine neverMixed_of_writes (by rw [hwrites]; simp) (fun bytes hb => ?_)
  rw [hwrites] at hb
  simpa using hb

section Collected
variable {o : PacketOrder} {u v : FullUpload} (h : o.Fits u v)

def Valid (o : PacketOrder) (x : ℕ ⊕ ℕ) : Prop := PacketOrder.number x < o.size x

/-- The entry holds the items collected so far, under the total that the first of them announced. -/
def Collected (o : PacketOrder) (u v : FullUpload) (p : List (ℕ ⊕ ℕ)) : Option HxFile → Prop
  | none => p = []
  | some f => p ≠ [] ∧ f.mapName = u.mapName ∧ f.fileName = u.fileName ∧
      f.filePacketTotal = Int32.ofNat (total o.size p) ∧ f.filePackets = storeAll ∅ (p.map (sent u v))

/-- What a round puts on disk. -/
def roundBytes (o : PacketOrder) (u v : FullUpload) (p : List (ℕ ⊕ ℕ)) : Bytes :=
  (List.range (total o.size p)).flatMap fun k => entryOr (storeAll ∅ (p.map (sent u v))) (Int32.ofNat k)

theorem number_lt {x : ℕ ⊕ ℕ} (hx : Valid o x) : PacketOrder.number x < 2 ^ 31 := by
  have hl := o.left_lt
  have hr := o.right_lt
  cases x with
  | inl k => exact lt_trans hx hl
  | inr k => exact lt_trans hx hr

theorem total_lt (p : List (ℕ ⊕ ℕ)) : total o.size p < 2 ^ 31 := by
  have hl := o.left_lt
  have hr := o.right_lt
  cases p with
  | nil => exact Nat.two_pow_pos 31
  | cons x p =>
    cases x with
    | inl k => exact hl
    | inr k => exact hr

theorem sent_number (x : ℕ ⊕ ℕ) : (sent u v x).filePacketNum = Int32.ofNat (PacketOrder.number x) := by
  cases x <;> rfl

include h in
theorem sent_total (x : ℕ ⊕ ℕ) : (sent u v x).filePacketTotal = Int32.ofNat (o.size x) := by
  cases x with
  | inl k => exact congrArg Int32.ofNat h.left
  | inr k => exact congrArg Int32.ofNat h.right

include h in
theorem sent_names (x : ℕ ⊕ ℕ) : (sent u v x).mapName = u.mapName ∧ (sent u v x).fileName = u.fileName := by
  cases x with
  | inl k => exact ⟨rfl,rfl⟩
  | inr k => exact ⟨h.mapName.symm,h.fileName.symm⟩

theorem ofNat_injOn {j k : ℕ} (hj : j < 2 ^ 31) (hk : k < 2 ^ 31) : Int32.ofNat j = Int32.ofNat k ↔ j = k := by
  constructor
  · intro heq
    have htoInt := congrArg Int32.toInt heq
    rw [Int32.toInt_ofNat_of_lt hj,Int32.toInt_ofNat_of_lt hk] at htoInt
    exact_mod_cast htoInt
  · rintro rfl
    rfl

/-- The entry counts the numbers that the collector counts. -/
theorem card_keys_eq_count {p : List (ℕ ⊕ ℕ)} (hp : ∀ x ∈ p, Valid o x) :
    (storeAll ∅ (p.map (sent u v))).keys.card = count PacketOrder.number p := by
  have hnumbers : (numbers (p.map (sent u v))).toFinset = (p.map PacketOrder.number).toFinset.image Int32.ofNat := by
    have hmap : numbers (p.map (sent u v)) = (p.map PacketOrder.number).map Int32.ofNat := by
      simp only [numbers,List.map_map]
      exact List.map_congr_left (fun x _ => sent_number x)
    rw [hmap]
    ext n
    simp only [List.mem_toFinset,List.mem_map,Finset.mem_image]
  have hinj : Set.InjOn Int32.ofNat (p.map PacketOrder.number).toFinset := by
    intro j hj k hk heq
    obtain ⟨x,hx,rfl⟩ := List.mem_map.mp (List.mem_toFinset.mp hj)
    obtain ⟨y,hy,rfl⟩ := List.mem_map.mp (List.mem_toFinset.mp hk)
    exact (ofNat_injOn (number_lt (hp x hx)) (number_lt (hp y hy))).mp heq
  rw [keys_storeAll,Finmap.keys_empty,Finset.empty_union,hnumbers,Finset.card_image_of_injOn hinj]
  rfl

/-- The last item with a number is the packet that is saved under it. -/
theorem entryOr_storeAll_eq {p : List (ℕ ⊕ ℕ)} (hp : ∀ x ∈ p, Valid o x) {k : ℕ} (hk : k < 2 ^ 31) :
    entryOr (storeAll ∅ (p.map (sent u v))) (Int32.ofNat k) =
      (lastNumbered PacketOrder.number p k).elim [] fun x => (sent u v x).fileContent := by
  induction p using List.reverseRecOn with
  | nil => rfl
  | append_singleton p x ih =>
    have hx := number_lt (hp x (by simp))
    rw [List.map_append,List.map_cons,List.map_nil,storeAll_concat,lastNumbered_concat,sent_number]
    by_cases hxk : PacketOrder.number x = k
    · subst hxk
      rw [if_pos rfl,entryOr,Finmap.lookup_insert]
      rfl
    · have hne : Int32.ofNat k ≠ Int32.ofNat (PacketOrder.number x) :=
        fun heq => hxk ((ofNat_injOn hk hx).mp heq).symm
      rw [if_neg hxk,entryOr,Finmap.lookup_insert_of_ne _ hne]
      exact ih (fun y hy => hp y (List.mem_append_left _ hy))

include h in
theorem collected_storedEntry (htotal : u.fileName ≠ [] ∨ o.left = o.right) {p : List (ℕ ⊕ ℕ)} {a : Option HxFile}
    (ha : Collected o u v p a) (x : ℕ ⊕ ℕ) : Collected o u v (p ++ [x]) (some (storedEntry a (sent u v x))) := by
  obtain ⟨hmap,hfile⟩ := sent_names h x
  have hstore : (p ++ [x]).map (sent u v) = p.map (sent u v) ++ [sent u v x] := by simp
  cases a with
  | none =>
    obtain rfl : p = [] := ha
    exact ⟨by simp,hmap,hfile,sent_total h x,by rw [hstore,storeAll_concat]; rfl⟩
  | some f =>
    obtain ⟨hne,hfmap,hffile,hftotal,hpackets⟩ := ha
    by_cases hname : f.fileName = []
    · -- an empty name never counts as set: the total is the newest one, and both uploads have the same
      have hsame : o.left = o.right := htotal.resolve_left (fun hu => hu (hffile.symm.trans hname))
      have hsize : ∀ y, o.size y = o.left := by
        intro y
        cases y with
        | inl k => rfl
        | inr k => exact hsame.symm
      have hhead : total o.size (p ++ [x]) = o.left := by
        obtain ⟨y,rest,rfl⟩ := List.exists_cons_of_ne_nil hne
        exact hsize y
      rw [storedEntry,Option.getD_some,HxFile.setFileInfo_of_eq hname]
      refine ⟨by simp,hmap,hfile,?_,?_⟩
      · rw [hhead,← hsize x]
        exact sent_total h x
      · rw [hstore,storeAll_concat,← hpackets]
        rfl
    · rw [storedEntry,Option.getD_some,HxFile.setFileInfo_of_ne hname]
      refine ⟨by simp,hfmap,hffile,?_,?_⟩
      · rw [total_append hne]
        exact hftotal
      · rw [hstore,storeAll_concat,← hpackets]
        rfl

include h in
/-- One packet makes one step of the collector. -/
theorem save_entryStep (htotal : u.fileName ≠ [] ∨ o.left = o.right) {p : List (ℕ ⊕ ℕ)} {a : Option HxFile}
    (ha : Collected o u v p a) {x : ℕ ⊕ ℕ} (hp : ∀ y ∈ p ++ [x], Valid o y) :
    Collected o u v (collect PacketOrder.number o.size p x).1 (entryStep a (succeeding (sent u v x))).1 ∧
    (entryStep a (succeeding (sent u v x))).2.save =
      (collect PacketOrder.number o.size p x).2.map fun q => (u.info.fullPath,roundBytes o u v q) := by
  have hnext := collected_storedEntry h htotal ha x
  have ⟨_,hmap,hfile,hftotal,hpackets⟩ := hnext
  have htoInt : (storedEntry a (sent u v x)).filePacketTotal.toInt = total o.size (p ++ [x]) := by
    rw [hftotal,Int32.toInt_ofNat_of_lt (total_lt _)]
  have hpath : (storedEntry a (sent u v x)).fullPath = u.info.fullPath := by
    rw [HxFile.fullPath,hmap,hfile]
    rfl
  have hfull : (storedEntry a (sent u v x)).Full ↔ total o.size (p ++ [x]) ≤ count PacketOrder.number (p ++ [x]) := by
    rw [HxFile.Full,sizeOfInt_of_nonneg (by omega),htoInt,hpackets,card_keys_eq_count hp]
    rfl
  by_cases hcount : count PacketOrder.number (p ++ [x]) < total o.size (p ++ [x])
  · have hwaiting : (entryStep a (succeeding (sent u v x))).2 = .waiting :=
      HxFile.outcome_waiting_iff.mpr (fun hf => by have := hfull.mp hf; omega)
    rw [entryStep_of_not_done (by rw [hwaiting]; rfl),hwaiting,collect,if_pos hcount]
    exact ⟨hnext,rfl⟩
  · have hcompletes : (storedEntry a (sent u v x)).Completes :=
      ⟨hfull.mpr (Nat.not_lt.mp hcount),hpath ▸ u.path_utf8⟩
    have hsaved : (entryStep a (succeeding (sent u v x))).2 =
        .saved u.info.fullPath (roundBytes o u v (p ++ [x])) := by
      refine (succeeding_outcome hcompletes).trans ?_
      rw [hpath,HxFile.assembled,HxFile.loopNumbers,htoInt,hpackets,List.flatMap_map]
      rfl
    rw [entryStep_of_done (by rw [hsaved]; rfl),hsaved,collect,if_neg hcount]
    exact ⟨rfl,rfl⟩

include h in
/-- What the shared entry saves are the rounds of the collector. -/
theorem saves_eq_rounds (htotal : u.fileName ≠ [] ∨ o.left = o.right) {p xs : List (ℕ ⊕ ℕ)} {a : Option HxFile}
    (ha : Collected o u v p a) (hp : ∀ y ∈ p ++ xs, Valid o y) :
    (trace entryStep a ((xs.map (sent u v)).map succeeding)).filterMap (fun e => e.2.save) =
      (rounds PacketOrder.number o.size p xs).map fun q => (u.info.fullPath,roundBytes o u v q) := by
  induction xs generalizing p a with
  | nil => rfl
  | cons x xs ih =>
    have hsplit : p ++ x :: xs = (p ++ [x]) ++ xs := List.append_cons p x xs
    rw [hsplit] at hp
    obtain ⟨hnext,hsave⟩ := save_entryStep h htotal ha (x := x) (fun y hy => hp y (List.mem_append_left _ hy))
    have hvalid : ∀ y ∈ (collect PacketOrder.number o.size p x).1 ++ xs, Valid o y := by
      intro y hy
      unfold collect at hy
      split at hy
      · exact hp y hy
      · exact hp y (List.mem_append_right _ hy)
    have hrest := ih hnext hvalid
    rw [List.map_cons,List.map_cons,trace_cons,List.filterMap_cons,hsave,hrest,rounds_cons,List.map_append]
    cases (collect PacketOrder.number o.size p x).2 <;> rfl

theorem PacketOrder.streams (o : PacketOrder) :
    Streams PacketOrder.number o.size Sum.inl Sum.inr o.left o.right where
  number_own _ := rfl
  number_other _ := rfl
  size_own _ := rfl
  size_other _ := rfl
  own_ne_other _ _ := Sum.inl_ne_inr

theorem PacketOrder.merged (o : PacketOrder) :
    Interleave (stream Sum.inl 0 o.left) (stream Sum.inr 0 o.right) o.order := by
  rw [stream_zero,stream_zero]
  exact o.interleave

theorem valid_of_mem {x : ℕ ⊕ ℕ} (hx : x ∈ o.order) : Valid o x := by
  rcases (Streams.mem_iff o.merged).mp hx with ⟨k,hk,rfl⟩ | ⟨k,hk,rfl⟩
  · exact hk
  · exact hk

include h in
theorem writesTo_eq_rounds (htotal : u.fileName ≠ [] ∨ o.left = o.right) (d : Disk) :
    writesTo u.info.place ((Server.fresh d).receipts ((o.packets u v).map succeeding)) =
      (rounds PacketOrder.number o.size [] o.order).map (roundBytes o u v) := by
  have hk : ∀ e ∈ (o.packets u v).map succeeding, uploadKey e = u.fileName := by
    intro e he
    obtain ⟨w,hw,rfl⟩ := List.mem_map.mp he
    obtain ⟨x,-,rfl⟩ := List.mem_map.mp hw
    exact (sent_names h x).2
  have hnone : (Server.fresh d).filesReceiver.lookup u.fileName = none := Finmap.lookup_empty _
  have hsaves := saves_eq_rounds h htotal (p := []) (a := none) rfl (fun y hy => valid_of_mem (by simpa using hy))
  rw [writesTo_eq,receipts_eq_trace _ hk,hnone,PacketOrder.packets,hsaves,List.filterMap_map]
  simp [FileInfo.place]

/-- A round made of one upload's items saves its content. -/
theorem roundBytes_of_whole {w : FullUpload} {side : ℕ → ℕ ⊕ ℕ} (hlen : o.size (side 0) = w.chunks.length)
    (hchunk : ∀ k, (sent u v (side k)).fileContent = w.chunk k) {p : List (ℕ ⊕ ℕ)} (hp : ∀ x ∈ p, Valid o x)
    (hwhole : Whole PacketOrder.number o.size side p) : roundBytes o u v p = w.content := by
  have hpacket : ∀ k < w.chunks.length, entryOr (storeAll ∅ (p.map (sent u v))) (Int32.ofNat k) = w.chunk k := by
    intro k hk
    have hlt := w.length_lt
    rw [entryOr_storeAll_eq hp (by omega),hwhole.last k (hlen ▸ hk)]
    exact hchunk k
  rw [roundBytes,hwhole.total,hlen,← w.flatMap_chunk,List.flatMap_def,List.flatMap_def]
  exact congrArg List.flatten (List.map_congr_left fun k hk => hpacket k (List.mem_range.mp hk))

include h in
theorem roundBytes_cases {p : List (ℕ ⊕ ℕ)} (hp : ∀ x ∈ p, Valid o x)
    (hwhole : Whole PacketOrder.number o.size Sum.inl p ∨ Whole PacketOrder.number o.size Sum.inr p) :
    roundBytes o u v p = u.content ∨ roundBytes o u v p = v.content := by
  have hleft : o.size (Sum.inl 0) = u.chunks.length := h.left.symm
  have hright : o.size (Sum.inr 0) = v.chunks.length := h.right.symm
  rcases hwhole with hwhole | hwhole
  · exact Or.inl (roundBytes_of_whole hleft (fun _ => rfl) hp hwhole)
  · exact Or.inr (roundBytes_of_whole hright (fun _ => rfl) hp hwhole)

include h in
theorem neverMixed_of_unmixed (hunmixed : o.Unmixed) (d : Disk) : NeverMixed d u v (o.packets u v) := by
  have hplace : u.info.place = v.info.place := by
    simp only [FileInfo.place,FileInfo.fullPath,FullUpload.info,h.mapName,h.fileName]
  have hleft : ((List.range o.left).map Sum.inl).map (sent u v) = u.packets := by
    rw [List.map_map,← h.left]
    rfl
  have hright : ((List.range o.right).map Sum.inr).map (sent u v) = v.packets := by
    rw [List.map_map,← h.right]
    rfl
  rcases hunmixed with (horder | horder) | ⟨hsame,hovertakes⟩
  · rw [PacketOrder.packets,horder,List.map_append,hleft,hright]
    exact neverMixed_append hplace d
  · rw [PacketOrder.packets,horder,List.map_append,hleft,hright]
    exact (neverMixed_append hplace.symm d).symm hplace.symm
  · have hrounds : rounds PacketOrder.number o.size [] o.order ≠ [] ∧ ∀ p ∈ rounds PacketOrder.number o.size [] o.order,
        Whole PacketOrder.number o.size Sum.inl p ∨ Whole PacketOrder.number o.size Sum.inr p := by
      rcases hovertakes with hovertakes | hovertakes
      · exact o.streams.whole_of_overtakes o.left_pos hsame.symm o.merged hovertakes
      · obtain ⟨hne,hwhole⟩ := o.streams.symm.whole_of_overtakes o.right_pos hsame o.merged.symm (hsame ▸ hovertakes)
        exact ⟨hne,fun p hp => (hwhole p hp).symm⟩
    have hwrites := writesTo_eq_rounds h (Or.inr hsame) d
    refine neverMixed_of_writes (by rw [hwrites]; simpa using hrounds.1) (fun bytes hb => ?_)
    rw [hwrites] at hb
    obtain ⟨p,hp,rfl⟩ := List.mem_map.mp hb
    exact roundBytes_cases h (fun x hx => valid_of_mem (mem_of_mem_rounds hp hx)) (hrounds.2 p hp)

end Collected

/-- An upload whose every chunk is the one byte `b`. -/
def uniform (n : ℕ) (pos : 0 < n) (lt : n < 2 ^ 31) (b : UInt8) : FullUpload where
  mapName := utf8 "m"
  fileName := utf8 "f"
  wholeFileMd5 := []
  chunks := List.replicate n [b]
  chunks_ne_nil := by simpa using Nat.ne_of_gt pos
  length_lt := by simpa using lt
  mapName_utf8 := secondUpload.mapName_utf8
  fileName_utf8 := secondUpload.fileName_utf8

theorem content_uniform (n : ℕ) (pos : 0 < n) (lt : n < 2 ^ 31) (b : UInt8) :
    (uniform n pos lt b).content = List.replicate n b := List.flatten_replicate_singleton

theorem chunk_uniform {n : ℕ} (pos : 0 < n) (lt : n < 2 ^ 31) (b : UInt8) {k : ℕ} (hk : k < n) :
    (uniform n pos lt b).chunk k = [b] := by
  simp [FullUpload.chunk,uniform,hk]

namespace PacketOrder
variable (o : PacketOrder)

def allOnes : FullUpload := uniform o.left o.left_pos o.left_lt 1

def allTwos : FullUpload := uniform o.right o.right_pos o.right_lt 2

theorem fits_uniform : o.Fits o.allOnes o.allTwos where
  left := List.length_replicate
  right := List.length_replicate
  mapName := rfl
  fileName := rfl
  content := by
    rw [allOnes,allTwos,content_uniform,content_uniform]
    intro h
    have hmem : (1 : UInt8) ∈ List.replicate o.right 2 := by
      rw [← h]
      exact List.mem_replicate.mpr ⟨Nat.ne_of_gt o.left_pos,rfl⟩
    exact absurd (List.eq_of_mem_replicate hmem) (by decide)

variable {o}

/-- A byte saved by the first round tells which upload it is from. -/
theorem entryOr_uniform {p post : List (ℕ ⊕ ℕ)} {i j k : ℕ} (hp : o.order = p ++ post)
    (h : Interleave (stream Sum.inl 0 i) (stream Sum.inr 0 j) p) (hk : k < max i j) :
    lastNumbered number p k = some (Sum.inl k) ∧
      entryOr (storeAll ∅ (p.map (sent o.allOnes o.allTwos))) (Int32.ofNat k) = [1] ∨
    lastNumbered number p k = some (Sum.inr k) ∧
      entryOr (storeAll ∅ (p.map (sent o.allOnes o.allTwos))) (Int32.ofNat k) = [2] := by
  have hvalid : ∀ x ∈ p, Valid o x := fun x hx => valid_of_mem (by rw [hp]; exact List.mem_append_left _ hx)
  rcases o.streams.lastNumbered_cases h (lt_max_iff.mp hk) with ⟨hmem,hlast⟩ | ⟨hmem,hlast⟩
  · left
    have hlt : k < 2 ^ 31 := number_lt (hvalid _ hmem)
    refine ⟨hlast,?_⟩
    rw [entryOr_storeAll_eq hvalid hlt,hlast]
    exact chunk_uniform o.left_pos o.left_lt 1 (hvalid _ hmem)
  · right
    have hlt : k < 2 ^ 31 := number_lt (hvalid _ hmem)
    refine ⟨hlast,?_⟩
    rw [entryOr_storeAll_eq hvalid hlt,hlast]
    exact chunk_uniform o.right_pos o.right_lt 2 (hvalid _ hmem)

theorem whole_of_neverMixed (h : NeverMixed .blank o.allOnes o.allTwos (o.packets o.allOnes o.allTwos))
    {p post : List (ℕ ⊕ ℕ)} {i j : ℕ} (hp : o.order = p ++ post) (hround : p ∈ rounds number o.size [] o.order)
    (hmerge : Interleave (stream Sum.inl 0 i) (stream Sum.inr 0 j) p) (htotal : total o.size p ≤ max i j) :
    Whole number o.size Sum.inl p ∨ Whole number o.size Sum.inr p := by
  have hcases : ∀ k ∈ List.range (total o.size p), _ := fun k hk =>
    entryOr_uniform hp hmerge (Nat.lt_of_lt_of_le (List.mem_range.mp hk) htotal)
  have hone : ∀ k ∈ List.range (total o.size p),
      (entryOr (storeAll ∅ (p.map (sent o.allOnes o.allTwos))) (Int32.ofNat k)).length = 1 := by
    intro k hk
    rcases hcases k hk with ⟨-,hentry⟩ | ⟨-,hentry⟩ <;> rw [hentry] <;> rfl
  have hbytes : roundBytes o o.allOnes o.allTwos p = o.allOnes.content ∨
      roundBytes o o.allOnes o.allTwos p = o.allTwos.content := by
    refine h.writes _ ?_
    rw [writesTo_eq_rounds o.fits_uniform (Or.inl (by decide +kernel : utf8 "f" ≠ []))]
    exact List.mem_map_of_mem hround
  rcases hbytes with hbytes | hbytes
  · left
    rw [allOnes,content_uniform] at hbytes
    obtain ⟨hlen,hentries⟩ := flatMap_eq_replicate _ hone hbytes
    rw [List.length_range] at hlen
    refine ⟨hlen,fun k hk => ?_⟩
    have hmem : k ∈ List.range (total o.size p) := List.mem_range.mpr (hlen ▸ hk)
    rcases hcases k hmem with ⟨hlast,-⟩ | ⟨-,htwo⟩
    · exact hlast
    · exact absurd (htwo.symm.trans (hentries k hmem)) (by decide)
  · right
    rw [allTwos,content_uniform] at hbytes
    obtain ⟨hlen,hentries⟩ := flatMap_eq_replicate _ hone hbytes
    rw [List.length_range] at hlen
    refine ⟨hlen,fun k hk => ?_⟩
    have hmem : k ∈ List.range (total o.size p) := List.mem_range.mpr (hlen ▸ hk)
    rcases hcases k hmem with ⟨-,hone⟩ | ⟨hlast,-⟩
    · exact absurd (hone.symm.trans (hentries k hmem)) (by decide)
    · exact hlast

theorem unmixed_of_neverMixed (h : NeverMixed .blank o.allOnes o.allTwos (o.packets o.allOnes o.allTwos)) :
    o.Unmixed := by
  rcases o.interleave.head?_eq with hhead | hhead
  · have hfirst : o.order.head? = some (Sum.inl 0) := by
      rw [hhead,List.head?_map,List.head?_range,if_neg (Nat.ne_of_gt o.left_pos)]
      rfl
    rcases o.streams.overtakes_of_whole o.left_pos o.merged hfirst
      (fun _ _ _ _ hp hround hmerge htotal => whole_of_neverMixed h hp hround hmerge htotal) with horder | ⟨hsame,hov⟩
    · exact Or.inl (Or.inl (by rw [horder,stream_zero,stream_zero]))
    · exact Or.inr ⟨hsame,Or.inl hov⟩
  · have hfirst : o.order.head? = some (Sum.inr 0) := by
      rw [hhead,List.head?_map,List.head?_range,if_neg (Nat.ne_of_gt o.right_pos)]
      rfl
    rcases o.streams.symm.overtakes_of_whole o.right_pos o.merged.symm hfirst
      (fun _ _ i j hp hround hmerge htotal =>
        (whole_of_neverMixed h hp hround hmerge.symm (max_comm i j ▸ htotal)).symm) with horder | ⟨hsame,hov⟩
    · exact Or.inl (Or.inr (by rw [horder,stream_zero,stream_zero]))
    · exact Or.inr ⟨hsame.symm,Or.inr (hsame ▸ hov)⟩

/-- Every interleaving of two uploads is such an order. -/
theorem exists_of_interleave {u v : FullUpload} (hmap : u.mapName = v.mapName) (hfile : u.fileName = v.fileName)
    (hne : u.content ≠ v.content) {ws : List File} (hws : Interleave u.packets v.packets ws) :
    ∃ o : PacketOrder, o.Fits u v ∧ ws = o.packets u v := by
  obtain ⟨order,horder,rfl⟩ := hws.exists_sum
  exact ⟨⟨u.chunks.length,v.chunks.length,List.length_pos_of_ne_nil u.chunks_ne_nil,
    List.length_pos_of_ne_nil v.chunks_ne_nil,u.length_lt,v.length_lt,order,horder⟩,⟨rfl,rfl,hmap,hfile,hne⟩,rfl⟩

end PacketOrder

/-- Two uploads of one file are kept apart, whatever their contents, exactly when one comes before the
other or overtakes it. -/
theorem neverMixed_iff_unmixed (o : PacketOrder) :
    (∀ u v : FullUpload, o.Fits u v → ∀ d, NeverMixed d u v (o.packets u v)) ↔ o.Unmixed := by
  constructor
  · exact fun h => PacketOrder.unmixed_of_neverMixed (h _ _ o.fits_uniform .blank)
  · exact fun hunmixed u v h d => neverMixed_of_unmixed h hunmixed d

def uploadOld : FullUpload := twoChunks (utf8 "m") secondUpload.mapName_utf8 [1] [2]
def uploadNew : FullUpload := twoChunks (utf8 "m") secondUpload.mapName_utf8 [3] [4]

theorem same_target_mixed : ¬ ∀ (u v : FullUpload), u.mapName = v.mapName → u.fileName = v.fileName →
    u.content ≠ v.content → ∀ ws, Interleave u.packets v.packets ws → ∀ d, NeverMixed d u v ws := by
  intro h
  have hfinal := (h uploadOld uploadNew rfl rfl (by decide)
    [uploadOld.packet 0,uploadNew.packet 0,uploadOld.packet 1,uploadNew.packet 1]
    (.left (.right (.left (.right .nil)))) .blank).final
  exact absurd hfinal (by decide +kernel)

end FDemo.MapServer
