import FDemo.MapServer.Handler
import FDemo.Protobuf.Codec

/-! # What a byte stream can do to the TCP handler

The package length is computed modulo `2 ^ 32`, so a length field close to that
announces a package shorter than its own header, or one of length zero, which
the unpacker takes off for ever. A download request without items makes the
handler read the first of none. Nothing else goes out of range.
-/
namespace FDemo.MapServer
open Packet Libhv

/-- A file message whose item list has no element. -/
def EmptyRequest (m : Message) : Prop := m.type = .file ∧ m.payload = .itemlist { items := [] }

/-- What the handler needs of a buffer: the header, and an item to read when the payload parses. -/
structure Handles (pb : Protobuf) (buf : Bytes) : Prop where
  header : headBodyLength ≤ buf.length
  inRange : (pb.parseFromString (stripHeader buf)).2 = true →
    ∀ s read save, (tcpOnMessage pb s read save buf).exception ≠ some .outOfRange

/-- Every read is unpacked after finitely many calls, and each of them can be handled. -/
def StreamSafe (pb : Protobuf) : Hio → List Bytes → Prop
  | _, [] => True
  | io, buf :: bufs =>
    (∃ fuel r, hioRead unpackSetting fuel io buf = some r) ∧
    ∀ fuel calls io', hioRead unpackSetting fuel io buf = some (calls,io') →
      (∀ c ∈ calls, Handles pb c) ∧ StreamSafe pb io' bufs

structure Framed (f : Bytes) : Prop where
  header : headBodyLength ≤ f.length
  length : f.length = headBodyLength + (lengthField f).toNat

/-- Behind any number of complete frames the next length field leaves room for the header. -/
def LengthsBounded (p : Bytes) : Prop :=
  ∀ (frames : List Bytes) (rest : Bytes), p = frames.flatten ++ rest → (∀ f ∈ frames, Framed f) →
    headBodyLength ≤ rest.length → (lengthField rest).toNat < 2 ^ 32 - headBodyLength

/-- No complete frame carries a request without items. -/
def RequestsNonempty (pb : Protobuf) (p : Bytes) : Prop :=
  ∀ (frames : List Bytes) (rest : Bytes), p = frames.flatten ++ rest → (∀ f ∈ frames, Framed f) →
    ∀ f ∈ frames, (pb.parseFromString (stripHeader f)).2 = true → ¬ EmptyRequest (pb.parseFromString (stripHeader f)).1

/-- The bytes that an open connection unpacks at each read are bounded in this way. -/
def StreamBounded (pb : Protobuf) : Hio → List Bytes → Prop
  | _, [] => True
  | io, buf :: bufs =>
    (io.closed = false → LengthsBounded (io.readbuf ++ buf) ∧ RequestsNonempty pb (io.readbuf ++ buf)) ∧
    ∀ fuel calls io', hioRead unpackSetting fuel io buf = some (calls,io') → StreamBounded pb io' bufs

theorem download_error {pb : Protobuf} {d : Disk} {ops : ℕ → ReadOps} {mapName : Bytes} {fileList : List Bytes}
    {e : Exception} (h : onReceiveDownloadMapRequest pb d ops mapName fileList = .error e) : e = .rangeError := by
  rw [onReceiveDownloadMapRequest_eq] at h
  split at h
  · simp at h
  · simpa using h.symm

/-- The handler reads the first of no items exactly for a request without items. -/
theorem outOfRange_iff {pb : Protobuf} {s : Server} {read : ℕ → ReadOps} {save : SaveOps} {buf : Bytes}
    (hlen : headBodyLength ≤ buf.length) : (tcpOnMessage pb s read save buf).exception = some .outOfRange ↔
      EmptyRequest (pb.parseFromString (stripHeader buf)).1 := by
  have hnot : ¬ buf.length < headBodyLength := Nat.not_lt.mpr hlen
  have hkind : ¬ MessageType.file = MessageType.maplist := by decide
  simp only [tcpOnMessage,hnot,↓reduceIte]
  generalize (pb.parseFromString (stripHeader buf)).1 = m
  obtain ⟨type,payload⟩ := m
  unfold dispatch EmptyRequest
  by_cases hmaplist : type = .maplist
  · subst hmaplist
    simp [Ne.symm hkind]
  · by_cases hfile : type = .file
    · subst hfile
      cases payload with
      | itemlist l =>
        obtain ⟨items⟩ := l
        cases items with
        | nil => simp [hkind,onItemlist]
        | cons mapName items =>
          simp only [hkind,↓reduceIte,onItemlist,Payload.itemlist.injEq,Itemlist.mk.injEq,reduceCtorEq,
            and_false,iff_false]
          cases hd : onReceiveDownloadMapRequest pb s.disk read mapName (items.map cString) with
          | error e => simp [download_error hd]
          | ok frames => simp
      | file f =>
        simp only [hkind,↓reduceIte,onFile,reduceCtorEq,and_false,iff_false]
        split <;> simp
      | notSet => simp [hkind]
      | heartbeat => simp [hkind]
      | location => simp [hkind]
      | fileTransferStatus => simp [hkind]
    · simp [hmaplist,hfile]

theorem handles_iff {pb : Protobuf} {buf : Bytes} : Handles pb buf ↔ headBodyLength ≤ buf.length ∧
    ((pb.parseFromString (stripHeader buf)).2 = true → ¬ EmptyRequest (pb.parseFromString (stripHeader buf)).1) := by
  constructor
  · rintro ⟨hlen,hrange⟩
    refine ⟨hlen,fun hparse hempty => hrange hparse (.mk ∅ .blank) (fun _ => {}) {} ?_⟩
    exact (outOfRange_iff hlen).mpr hempty
  · rintro ⟨hlen,hnonempty⟩
    exact ⟨hlen,fun hparse s read save hout => hnonempty hparse ((outOfRange_iff hlen).mp hout)⟩

section Frames
variable {p r : Bytes} {fs : List Bytes}

theorem announced_of_bounded (h : (lengthField p).toNat < 2 ^ 32 - headBodyLength) :
    (announced unpackSetting p).toNat = headBodyLength + (lengthField p).toNat := by
  unfold headBodyLength at h ⊢
  rw [announced_eq,UInt32.toNat_add,show (8 : UInt32).toNat = 8 from rfl]
  omega

theorem bounded_of_announced (h : headBodyLength ≤ (announced unpackSetting p).toNat) :
    (lengthField p).toNat < 2 ^ 32 - headBodyLength := by
  have hlt := (lengthField p).toNat_lt
  unfold headBodyLength at h ⊢
  rw [announced_eq,UInt32.toNat_add,show (8 : UInt32).toNat = 8 from rfl] at h
  omega

theorem lengthField_bounded (h : Drains (takePackage unpackSetting) p fs r)
    (hfs : ∀ f ∈ fs, headBodyLength ≤ f.length) (hp : headBodyLength ≤ p.length) :
    (lengthField p).toNat < 2 ^ 32 - headBodyLength := by
  apply bounded_of_announced
  cases h with
  | wait hwait =>
    have hnone := (takePackage_eq_none rfl).mp hwait
    simp only [bodyOffset_toNat] at hnone
    unfold headBodyLength at hp ⊢
    omega
  | take htake _ =>
    obtain ⟨-,hle,rfl,-⟩ := (takePackage_eq_some rfl).mp htake
    simpa [hle] using hfs _ List.mem_cons_self

/-- Draining takes off the complete frames at the front. -/
theorem frames_bounded_of_drains (h : Drains (takePackage unpackSetting) p fs r)
    (hfs : ∀ f ∈ fs, headBodyLength ≤ f.length) {frames : List Bytes} {rest : Bytes}
    (hsplit : p = frames.flatten ++ rest) (hframed : ∀ f ∈ frames, Framed f) :
    (∀ f ∈ frames, f ∈ fs) ∧
      (headBodyLength ≤ rest.length → (lengthField rest).toNat < 2 ^ 32 - headBodyLength) := by
  induction frames generalizing p fs with
  | nil =>
    rw [List.flatten_nil,List.nil_append] at hsplit
    subst hsplit
    exact ⟨by simp,lengthField_bounded h hfs⟩
  | cons f frames ih =>
    rw [List.flatten_cons,List.append_assoc] at hsplit
    obtain ⟨hhead,hlen⟩ := hframed f List.mem_cons_self
    have hp : headBodyLength ≤ p.length := by
      rw [hsplit,List.length_append]
      omega
    have hfield : lengthField p = lengthField f := by rw [hsplit,lengthField_append hhead]
    have hannounced := announced_of_bounded (lengthField_bounded h hfs hp)
    rw [hfield,← hlen] at hannounced
    have htake : takePackage unpackSetting p = some (f,frames.flatten ++ rest) := by
      refine (takePackage_eq_some rfl).mpr ⟨hp,?_,?_,?_⟩
      · rw [hannounced,hsplit,List.length_append]
        omega
      · rw [hannounced,hsplit,List.take_left]
      · rw [hannounced,hsplit,List.drop_left]
    cases h with
    | wait hwait => exact absurd (hwait.symm.trans htake) (Option.some_ne_none _).symm
    | take htake' h' =>
      obtain ⟨rfl,rfl⟩ := Prod.mk.inj (Option.some.inj (htake'.symm.trans htake))
      obtain ⟨hmem,hrest⟩ := ih h' (fun g hg => hfs g (List.mem_cons_of_mem _ hg)) rfl
        (fun g hg => hframed g (List.mem_cons_of_mem _ hg))
      refine ⟨fun g hg => ?_,hrest⟩
      rcases List.mem_cons.mp hg with rfl | hg
      · exact List.mem_cons_self
      · exact List.mem_cons_of_mem _ (hmem g hg)

theorem framed_take (h : (lengthField p).toNat < 2 ^ 32 - headBodyLength)
    (hle : (announced unpackSetting p).toNat ≤ p.length) : Framed (p.take (announced unpackSetting p).toNat) := by
  have hannounced := announced_of_bounded h
  have hlen : (p.take (announced unpackSetting p).toNat).length = headBodyLength + (lengthField p).toNat := by
    rw [List.length_take,Nat.min_eq_left hle,hannounced]
  have hhead : headBodyLength ≤ (p.take (announced unpackSetting p).toNat).length := by
    rw [hlen]
    exact Nat.le_add_right _ _
  have hfield : lengthField (p.take (announced unpackSetting p).toNat) = lengthField p := by
    rw [← lengthField_append hhead (p.drop (announced unpackSetting p).toNat),List.take_append_drop]
  exact ⟨hhead,by rw [hlen,hfield]⟩

theorem LengthsBounded.rest {f q : Bytes} (h : LengthsBounded (f ++ q)) (hf : Framed f) : LengthsBounded q := by
  intro frames rest hsplit hframed
  refine h (f :: frames) rest ?_ (List.forall_mem_cons.mpr ⟨hf,hframed⟩)
  rw [List.flatten_cons,List.append_assoc,hsplit]

theorem drains_of_bounded (h : LengthsBounded p) : ∃ fs r, Drains (takePackage unpackSetting) p fs r ∧
    p = fs.flatten ++ r ∧ ∀ f ∈ fs, Framed f := by
  induction hn : p.length using Nat.strongRecOn generalizing p with
  | ind n ih =>
    by_cases hhead : headBodyLength ≤ p.length
    · have hbound := h [] p rfl (by simp) hhead
      by_cases hle : (announced unpackSetting p).toNat ≤ p.length
      · have htake : takePackage unpackSetting p = some (p.take (announced unpackSetting p).toNat,
            p.drop (announced unpackSetting p).toNat) := (takePackage_eq_some rfl).mpr ⟨hhead,hle,rfl,rfl⟩
        have hframed := framed_take hbound hle
        have hsplit := List.take_append_drop (announced unpackSetting p).toNat p
        have hshort : (p.drop (announced unpackSetting p).toNat).length < n := by
          rw [List.length_drop,announced_of_bounded hbound,← hn]
          unfold headBodyLength at hhead ⊢
          omega
        obtain ⟨fs,r,hdrains,hrest,hall⟩ := ih _ hshort (LengthsBounded.rest (hsplit.symm ▸ h) hframed) rfl
        refine ⟨_,r,.take htake hdrains,?_,List.forall_mem_cons.mpr ⟨hframed,hall⟩⟩
        rw [List.flatten_cons,List.append_assoc,← hrest,hsplit]
      · exact ⟨[],p,.wait ((takePackage_eq_none rfl).mpr (Or.inr (Nat.not_le.mp hle))),rfl,by simp⟩
    · exact ⟨[],p,.wait ((takePackage_eq_none rfl).mpr (Or.inl (Nat.not_le.mp hhead))),rfl,by simp⟩

/-- A package of length zero is taken off for ever. -/
theorem unpackLoop_endless (hhead : headBodyLength ≤ p.length) (hzero : (lengthField p).toNat = 2 ^ 32 - headBodyLength)
    (fuel : ℕ) (len : UInt32) : unpackLoop unpackSetting fuel p len = none := by
  have hannounced : (announced unpackSetting p).toNat = 0 := by
    rw [announced_eq,UInt32.toNat_add,hzero]
    decide
  induction fuel generalizing len with
  | zero => rfl
  | succ fuel ih =>
    have hoffset : unpackSetting.bodyOffset.toNat ≤ p.length := hhead
    simp only [unpackLoop,if_pos hoffset,packageLen_eq (s := unpackSetting) rfl,hannounced,Nat.zero_le,↓reduceIte,
      List.drop_zero,ih,Option.map_none]

end Frames

/-- One read is unpacked into buffers that can be handled exactly when its bytes are bounded. -/
theorem read_safe_iff (pb : Protobuf) {io : Hio} (hopen : io.closed = false) (buf : Bytes) :
    ((∃ fuel r, hioRead unpackSetting fuel io buf = some r) ∧
      ∀ fuel calls io', hioRead unpackSetting fuel io buf = some (calls,io') → ∀ c ∈ calls, Handles pb c) ↔
    LengthsBounded (io.readbuf ++ buf) ∧ RequestsNonempty pb (io.readbuf ++ buf) := by
  have hread : ∀ fuel, hioRead unpackSetting fuel io buf =
      (unpackLoop unpackSetting fuel (io.readbuf ++ buf) unpackSetting.bodyOffset.toUInt32).map
        fun u => (u.calls,settle unpackSetting io u) := by
    intro fuel
    simp only [hioRead,hopen,Bool.false_eq_true,↓reduceIte,hioUnpackByLengthField]
  constructor
  · rintro ⟨⟨fuel,r,hr⟩,hall⟩
    rw [hread,Option.map_eq_some_iff] at hr
    obtain ⟨u,hu,-⟩ := hr
    have hdrains := drains_of_unpackLoop rfl hu
    have hcalls := hall fuel u.calls _ ((hread fuel).trans (by rw [hu]; rfl))
    have hlong : ∀ f ∈ u.calls, headBodyLength ≤ f.length := fun f hf => (hcalls f hf).header
    refine ⟨fun frames rest hsplit hframed => (frames_bounded_of_drains hdrains hlong hsplit hframed).2,?_⟩
    intro frames rest hsplit hframed f hf
    have hmem := (frames_bounded_of_drains hdrains hlong hsplit hframed).1 f hf
    exact (handles_iff.mp (hcalls f hmem)).2
  · rintro ⟨hbounded,hrequests⟩
    obtain ⟨fs,r,hdrains,hsplit,hframed⟩ := drains_of_bounded hbounded
    obtain ⟨n,hloop,-⟩ := unpackLoop_of_drains (P := fun _ => True) (s := unpackSetting) rfl hdrains
      (Nat.lt_succ_self _) trivial (fun _ _ _ _ => trivial) (fun _ => trivial)
    refine ⟨⟨_,_,(hread _).trans (by rw [hloop]; rfl)⟩,fun fuel calls io' h c hc => ?_⟩
    rw [hread,Option.map_eq_some_iff] at h
    obtain ⟨u,hu,heq⟩ := h
    obtain ⟨rfl,-⟩ := Prod.mk.inj heq
    obtain ⟨hcalls,-⟩ := (drains_of_unpackLoop rfl hu).unique hdrains
    rw [hcalls] at hc
    exact handles_iff.mpr ⟨(hframed c hc).header,hrequests fs r hsplit hframed c hc⟩

/-- Every stream and every way of cutting it is safe exactly when the bytes of every read are bounded. -/
theorem stream_safe_iff (pb : Protobuf) (io : Hio) (bufs : List Bytes) :
    StreamSafe pb io bufs ↔ StreamBounded pb io bufs := by
  induction bufs generalizing io with
  | nil => exact Iff.rfl
  | cons buf bufs ih =>
    simp only [StreamSafe,StreamBounded]
    cases hclosed : io.closed with
    | false =>
      have hread := read_safe_iff pb hclosed buf
      constructor
      · rintro ⟨hex,hall⟩
        exact ⟨fun _ => hread.mp ⟨hex,fun fuel calls io' h => (hall fuel calls io' h).1⟩,
          fun fuel calls io' h => (ih io').mp (hall fuel calls io' h).2⟩
      · rintro ⟨hbounded,hall⟩
        obtain ⟨hex,hhandles⟩ := hread.mpr (hbounded rfl)
        exact ⟨hex,fun fuel calls io' h => ⟨hhandles fuel calls io' h,(ih io').mpr (hall fuel calls io' h)⟩⟩
    | true =>
      have hnothing : ∀ fuel, hioRead unpackSetting fuel io buf = some ([],io) := by
        intro fuel
        simp [hioRead,hclosed]
      simp only [hnothing,Option.some.injEq,Prod.mk.injEq,Bool.true_eq_false,false_implies,true_and]
      constructor
      · rintro ⟨-,hall⟩ fuel calls io' h
        exact (ih io').mp (hall fuel calls io' h).2
      · intro hall
        refine ⟨⟨0,([],io),rfl⟩,fun fuel calls io' h => ⟨?_,(ih io').mpr (hall fuel calls io' h)⟩⟩
        rw [← h.1]
        simp

/-- A length field of `2 ^ 32 - 1` hands seven bytes to the handler. -/
theorem short_package_unsafe :
    ¬ StreamSafe packetCodec { readbufLen := 8192 } [[0,0,0,0,0xFF,0xFF,0xFF,0xFF]] := by
  rintro ⟨-,hall⟩
  have hread : hioRead unpackSetting 2 { readbufLen := 8192 } [0,0,0,0,0xFF,0xFF,0xFF,0xFF] =
      some ([[0,0,0,0,0xFF,0xFF,0xFF]],{ readbuf := [0xFF], readbufLen := 8192 }) := by decide +kernel
  have hhandles := (hall 2 _ _ hread).1 [0,0,0,0,0xFF,0xFF,0xFF] List.mem_cons_self
  exact absurd hhandles.header (by decide)

end FDemo.MapServer
