import FDemo.Libhv.UnpackModes

/-! # Reading a stream through the buffer

Between two reads the buffer begins with the pending bytes, has room behind them
and is never longer than `package_max_length`. A read keeps this, so no assertion
fails and no access leaves the buffer, and the packages handed out are those of
the stream read so far, wherever the reads ended.
-/
namespace FDemo.Libhv

/-- The length and the count that the mode relies on. A buffer for packages of fixed length is never
shrunk, any other buffer only while it is large. -/
def Setting.Sized : Setting → ℕ → UInt32 → Prop
  | .fixedLength _ n, len, cnt => len = n.toNat ∧ cnt = 0
  | setting, len, cnt => min hloopReadBufsize setting.packageMaxLength.toNat ≤ len ∧
      (cnt ≠ 0 → readBufsizeHighWater < len)

/-- An open connection whose buffer holds the bytes `pending`. -/
structure Holds (setting : Setting) (io : ReadIo) (pending : Bytes) : Prop where
  opened : io.closed = false
  stays : io.closing = false
  head : io.readbuf.head = 0
  tail : io.readbuf.tail = pending.length
  contents : pending <+: io.readbuf.base
  bound : io.readbuf.len ≤ setting.packageMaxLength.toNat
  maxSize : io.maxReadBufsize = setting.packageMaxLength
  sized : setting.Sized io.readbuf.len io.smallReadbytesCnt

/-- A connection that can be read from. -/
structure Ready (setting : Setting) (io : ReadIo) (pending : Bytes) : Prop extends Holds setting io pending where
  room : pending.length < io.readbuf.len

variable {setting : Setting} {io : ReadIo} {T P : Bytes} {fuel : ℕ}

theorem Holds.length_le (h : Holds setting io T) : T.length ≤ io.readbuf.len := h.contents.length_le

namespace ReadIo

theorem hioReadCb_eq (io : ReadIo) (package : Bytes) : ∃ cnt,
    io.hioReadCb package = { io with smallReadbytesCnt := cnt } ∧
      (cnt ≠ 0 → io.smallReadbytesCnt ≠ 0 ∨
        readBufsizeHighWater < io.readbuf.len ∧ package.length < io.readbuf.len / 2) := by
  by_cases hlarge : readBufsizeHighWater < io.readbuf.len
  · by_cases hsmall : package.length < io.readbuf.len / 2
    · exact ⟨io.smallReadbytesCnt + 1,by simp [hioReadCb,hlarge,hsmall],fun _ => Or.inr ⟨hlarge,hsmall⟩⟩
    · exact ⟨0,by simp [hioReadCb,hlarge,hsmall],fun h => absurd rfl h⟩
  · exact ⟨io.smallReadbytesCnt,by simp [hioReadCb,hlarge],Or.inl⟩

/-- The callbacks touch nothing but the count. -/
theorem readCbs_eq (calls : List Bytes) (io : ReadIo) : ∃ cnt,
    calls.foldl hioReadCb io = { io with smallReadbytesCnt := cnt } ∧
      (cnt ≠ 0 → io.smallReadbytesCnt ≠ 0 ∨
        readBufsizeHighWater < io.readbuf.len ∧ ∃ package ∈ calls, package.length < io.readbuf.len / 2) := by
  induction calls generalizing io with
  | nil => exact ⟨io.smallReadbytesCnt,rfl,Or.inl⟩
  | cons package calls ih =>
    obtain ⟨cnt,hcb,hcnt⟩ := hioReadCb_eq io package
    obtain ⟨cnt',hcbs,hcnt'⟩ := ih (io.hioReadCb package)
    rw [hcb] at hcbs hcnt'
    refine ⟨cnt',by rw [List.foldl_cons,hcb,hcbs],fun h => ?_⟩
    rcases hcnt' h with h | ⟨hlarge,p,hp,hsmall⟩
    · rcases hcnt h with h | ⟨hlarge,hsmall⟩
      · exact Or.inl h
      · exact Or.inr ⟨hlarge,package,List.mem_cons_self,hsmall⟩
    · exact Or.inr ⟨hlarge,p,List.mem_cons_of_mem _ hp,hsmall⟩

theorem moveRemain_eq (io : ReadIo) (hm : T <+: io.readbuf.base) {rest : ℕ} (hrest : rest ≤ T.length) : ∃ base,
    io.moveRemain rest (T.length - rest) = .ok { io with readbuf := ⟨base,0,T.length - rest⟩ } ∧
      base.length = io.readbuf.len ∧ T.drop rest <+: base := by
  by_cases hmove : T.length - rest ≠ 0 ∧ rest ≠ 0
  · obtain ⟨base,hmem,hlen,hpre⟩ := memmove_prefix hm hrest
    exact ⟨base,by simp [moveRemain,hmove,hmem],hlen,hpre⟩
  · refine ⟨io.readbuf.base,by simp only [moveRemain,hmove,↓reduceIte]; rfl,rfl,?_⟩
    rcases Nat.eq_zero_or_pos rest with rfl | hpos
    · exact hm
    · have hnil : T.drop rest = [] := List.drop_eq_nil_of_le (by omega)
      exact hnil ▸ List.nil_prefix

end ReadIo

/-- Packages handed out and the rest moved to the front. -/
theorem Holds.moveRemain (h : Holds setting io T) (calls : List Bytes) {rest : ℕ} (hrest : rest ≤ T.length)
    (hcalls : ∀ package ∈ calls, ∀ max n, setting = .fixedLength max n → package.length = n.toNat) :
    ∃ io', (calls.foldl ReadIo.hioReadCb io).moveRemain rest (T.length - rest) = .ok io' ∧
      Holds setting io' (T.drop rest) ∧ io'.readbuf.len = io.readbuf.len := by
  obtain ⟨cnt,hcbs,hcnt⟩ := ReadIo.readCbs_eq calls io
  obtain ⟨base,hmove,hlen,hpre⟩ := ReadIo.moveRemain_eq { io with smallReadbytesCnt := cnt } h.contents hrest
  have hsized : setting.Sized io.readbuf.len cnt := by
    have hold := h.sized
    cases setting with
    | fixedLength max n =>
      obtain ⟨hlen,hzero⟩ := hold
      refine ⟨hlen,by_contra fun h0 => ?_⟩
      rcases hcnt h0 with h0 | ⟨-,package,hmem,hsmall⟩
      · exact h0 hzero
      · have := hcalls package hmem max n rfl
        omega
    | delimiter max d => exact ⟨hold.1,fun h0 => (hcnt h0).elim hold.2 And.left⟩
    | lengthField s => exact ⟨hold.1,fun h0 => (hcnt h0).elim hold.2 And.left⟩
  rw [hcbs]
  refine ⟨_,hmove,⟨h.opened,h.stays,rfl,(List.length_drop).symm,hpre,hlen.trans_le h.bound,h.maxSize,?_⟩,hlen⟩
  rwa [← hlen] at hsized

/-- A buffer of another size that the mode allows. -/
theorem Holds.hioAllocReadbuf (h : Holds setting io T) (hmax : setting.packageMaxLength.toNat < 2 ^ 31) (len : ℕ)
    (hmode : ∀ max n, setting ≠ .fixedLength max n) (hT : T.length < len)
    (hlow : min hloopReadBufsize setting.packageMaxLength.toNat ≤ len)
    (hhigh : len ≤ setting.packageMaxLength.toNat) :
    ∃ io', io.hioAllocReadbuf len = .ok io' ∧ Ready setting io' T := by
  have hbase : (realloc 0 io.readbuf.base len).length = len := length_realloc _ _ _
  have hle : ¬ io.maxReadBufsize.toNat < len := by
    rw [h.maxSize]
    omega
  have hint : ¬ 2 ^ 31 ≤ len := by omega
  have hsized : setting.Sized (realloc 0 io.readbuf.base len).length 0 := by
    rw [hbase]
    cases setting with
    | fixedLength max n => exact absurd rfl (hmode max n)
    | delimiter max d => exact ⟨hlow,fun h0 => absurd rfl h0⟩
    | lengthField s => exact ⟨hlow,fun h0 => absurd rfl h0⟩
  refine ⟨{ io with readbuf := { io.readbuf with base := realloc 0 io.readbuf.base len }, smallReadbytesCnt := 0 },
    by simp only [ReadIo.hioAllocReadbuf,hle,hint,↓reduceIte],?_⟩
  exact ⟨⟨h.opened,h.stays,h.head,h.tail,prefix_realloc 0 h.contents hT.le,hbase.trans_le hhigh,h.maxSize,hsized⟩,
    hT.trans_eq hbase.symm⟩

/-- The connection goes on with the bytes the reader keeps, or is closed. -/
inductive Keeps (setting : Setting) (io : ReadIo) : Option Bytes → Prop where
  | pending {r : Bytes} : Ready setting io r → Keeps setting io (some r)
  | closed : io.closed = true → Keeps setting io none

/-- A read of the pending bytes `T` hands out and keeps what the mode says; it hangs only when they
cannot be drained. -/
def Outcome (setting : Setting) (T : Bytes) : Except Trap (List Bytes × ReadIo) → Prop
  | .ok (calls,io) => ∃ o, Reads setting.peel setting.exceeds T calls o ∧ Keeps setting io o
  | .error t => t = .fuel ∧ ∀ fs r, ¬ Drains setting.peel T fs r

theorem outcome_fixedLength {max n : UInt32} (hn : n ≠ 0) (h : Holds (.fixedLength max n) io T)
    (hfuel : T.length < fuel) : Outcome (.fixedLength max n) T (io.hioUnpackByFixedLength n fuel T.length) := by
  obtain ⟨hlen,-⟩ := h.sized
  obtain ⟨c,hloop,hrest,hdrains⟩ := fixedLengthLoop_drains h.contents max hn (Nat.zero_le _) (by omega)
  rw [List.drop_zero] at hdrains
  have hpackages := hdrains.forall_mem (Q := fun f => f.length = n.toNat) (by
    intro p f q hpeel
    by_cases hle : n.toNat ≤ p.length
    · obtain ⟨rfl,-⟩ : p.take n.toNat = f ∧ p.drop n.toNat = q := by simpa [Setting.peel,hle] using hpeel
      simpa using hle
    · exact absurd hpeel (by simp [Setting.peel,hle]))
  obtain ⟨io',hmove,hholds,hlen'⟩ := h.moveRemain c.calls hrest (fun f hf _ _ heq => by
    obtain ⟨rfl,rfl⟩ := Setting.fixedLength.inj heq
    exact hpackages f hf)
  have hrun : io.hioUnpackByFixedLength n fuel T.length = .ok (c.calls,io') := by
    have hassert : ¬ io.readbuf.len < n.toNat := by omega
    simp only [ReadIo.hioUnpackByFixedLength,hassert,↓reduceIte,h.head,hloop,hmove,ok_bind,pure_eq_ok]
  have hshort : (T.drop c.rest).length < n.toNat := by
    by_contra hle
    exact absurd hdrains.waits (by simp only [Setting.peel,Nat.not_lt.mp hle,↓reduceIte]; exact Option.some_ne_none _)
  rw [hrun]
  exact ⟨_,.pending hdrains id,.pending ⟨hholds,by omega⟩⟩

/-- Nothing before the last `delimiter_bytes - 1` pending bytes begins a delimiter. -/
theorem not_prefix_of_waiting {max : UInt32} {d bs : Bytes} (hd : d ≠ []) (hP : P.length < max.toNat)
    (hwait : (Setting.delimiter max d).peel P = none) {j : ℕ} (hj : j < P.length + 1 - d.length) :
    ¬ d <+: (P ++ bs).drop j := by
  intro hpre
  have hnone : firstEnd d P = none := by
    rcases hfirst : firstEnd d P with _ | e
    · rfl
    · have := Setting.peel_delimiter_eq_none.mp hwait e hfirst
      have := (firstEnd_bounds hfirst).2
      omega
  refine not_prefix_of_firstEnd_eq_none hd hnone j ?_
  rw [List.drop_append_of_le_length (by omega)] at hpre
  exact List.prefix_of_prefix_length_le hpre (List.prefix_append _ bs) (by rw [List.length_drop]; omega)

theorem Holds.growFull {max : UInt32} {d r : Bytes} (h : Holds (.delimiter max d) io r) (hint : max.toNat < 2 ^ 31)
    (hpos : 0 < io.readbuf.len) : ∃ io', io.growFull max = .ok io' ∧
      if max.toNat ≤ r.length then io'.closed = true else Ready (.delimiter max d) io' r := by
  have hbound : io.readbuf.len ≤ max.toNat := h.bound
  have hle := h.length_le
  have htail := h.tail
  by_cases hfull : io.readbuf.tail ≠ 0 ∧ io.readbuf.tail = io.readbuf.len
  · by_cases hmax : max.toNat ≤ io.readbuf.len
    · have hover : max.toNat ≤ r.length := by omega
      exact ⟨_,by rw [ReadIo.growFull,if_pos hfull,if_pos hmax],by simp [hover]⟩
    · have hlow : min hloopReadBufsize max.toNat ≤ io.readbuf.len := h.sized.1
      obtain ⟨io',halloc,hready⟩ := h.hioAllocReadbuf hint (min (io.readbuf.len * 2) max.toNat)
        (fun _ _ heq => Setting.noConfusion heq) (by omega) (show min _ max.toNat ≤ _ by omega)
        (show _ ≤ max.toNat by omega)
      have hover : ¬ max.toNat ≤ r.length := by omega
      refine ⟨io',?_,by simpa only [hover,↓reduceIte] using hready⟩
      rw [ReadIo.growFull,if_pos hfull,if_neg hmax,halloc]
  · have hroom : r.length < io.readbuf.len := by omega
    have hover : ¬ max.toNat ≤ r.length := by omega
    exact ⟨io,by rw [ReadIo.growFull,if_neg hfull],by simpa only [hover,↓reduceIte] using ⟨h,hroom⟩⟩

theorem outcome_delimiter {max : UInt32} {d bs : Bytes} (hd : d ≠ []) (hint : max.toNat < 2 ^ 31)
    (h : Holds (.delimiter max d) io (P ++ bs)) (hbs : bs ≠ []) (hP : P.length < max.toNat)
    (hwait : (Setting.delimiter max d).peel P = none) (hfuel : (P ++ bs).length < fuel) :
    Outcome (.delimiter max d) (P ++ bs) (io.hioUnpackByDelimiter max d fuel P.length (P ++ bs).length) := by
  have hpos := List.length_pos_of_ne_nil hbs
  have hdpos := List.length_pos_of_ne_nil hd
  have hTlen := h.length_le
  have happ : (P ++ bs).length = P.length + bs.length := List.length_append
  have hbound : io.readbuf.len ≤ max.toNat := h.bound
  obtain ⟨c,hloop,hrest,hdrains⟩ := delimiterLoop_drains h.contents (show _ ≤ max.toNat by omega) hd 0
    (P.length + 1 - d.length) (Nat.zero_le _) (by omega) (fun j _ hj => not_prefix_of_waiting hd hP hwait hj)
    (show _ < fuel by omega)
  rw [List.drop_zero] at hdrains
  obtain ⟨io₁,hmove,hholds,hlen⟩ := h.moveRemain c.calls hrest
    (fun f hf _ _ heq => Setting.noConfusion heq)
  obtain ⟨io₂,hgrow,hkeep⟩ := hholds.growFull hint (by omega)
  have hrun : io.hioUnpackByDelimiter max d fuel P.length (P ++ bs).length = .ok (c.calls,io₂) := by
    simp only [ReadIo.hioUnpackByDelimiter,h.head,Nat.not_lt_zero,↓reduceIte,hloop,hmove,hgrow,ok_bind,pure_eq_ok]
  rw [hrun]
  by_cases hover : max.toNat ≤ ((P ++ bs).drop c.rest).length
  · exact ⟨none,.gaveUp hdrains ⟨hdrains.waits,hover⟩,.closed (by simpa only [hover,↓reduceIte] using hkeep)⟩
  · exact ⟨_,.pending hdrains fun h => hover h.2,.pending (by simpa only [hover,↓reduceIte] using hkeep)⟩

theorem limit_bounds {lower v upper : ℕ} (h : lower ≤ upper) :
    lower ≤ limit lower v upper ∧ limit lower v upper ≤ upper := by
  unfold limit
  split
  · omega
  · split <;> omega

theorem Holds.growFor {s : UnpackSetting} {r : Bytes} {n : UInt32} (h : Holds (.lengthField s) io r)
    (hint : s.packageMaxLength.toNat < 2 ^ 31) (hr : r ≠ []) (hroom : r.length < max n.toNat io.readbuf.len) :
    ∃ io', io.growFor s n = .ok io' ∧
      if s.packageMaxLength < n then io'.closed = true else Ready (.lengthField s) io' r := by
  have hbound : io.readbuf.len ≤ s.packageMaxLength.toNat := h.bound
  have htail : io.readbuf.tail ≠ 0 := by
    rw [h.tail]
    exact Nat.ne_of_gt (List.length_pos_of_ne_nil hr)
  by_cases hgrow : io.readbuf.len < n.toNat
  · by_cases hmax : s.packageMaxLength < n
    · exact ⟨_,by rw [ReadIo.growFor,if_pos ⟨htail,hgrow⟩,if_pos hmax],by simp [hmax]⟩
    · have hlow : min hloopReadBufsize s.packageMaxLength.toNat ≤ io.readbuf.len := h.sized.1
      have hn : n.toNat ≤ s.packageMaxLength.toNat := UInt32.le_iff_toNat_le.mp (UInt32.not_lt.mp hmax)
      obtain ⟨hlow',hhigh'⟩ := limit_bounds (v := io.readbuf.len * 2) hn
      obtain ⟨io',halloc,hready⟩ := h.hioAllocReadbuf hint
        (limit n.toNat (io.readbuf.len * 2) s.packageMaxLength.toNat) (fun _ _ heq => Setting.noConfusion heq) (by omega)
        (show min _ s.packageMaxLength.toNat ≤ _ by omega) hhigh'
      refine ⟨io',?_,by simpa only [hmax,↓reduceIte] using hready⟩
      rw [ReadIo.growFor,if_pos ⟨htail,hgrow⟩,if_neg hmax,halloc]
  · have hmax : ¬ s.packageMaxLength < n := by
      rw [UInt32.lt_iff_toNat_lt]
      omega
    exact ⟨io,by rw [ReadIo.growFor,if_neg fun h => hgrow h.2],by simpa only [hmax,↓reduceIte] using ⟨h,by omega⟩⟩

theorem outcome_lengthField {s : UnpackSetting} (hbe : s.lengthFieldCoding = .bigEndian)
    (hfield : s.lengthFieldOffset.toNat + s.lengthFieldBytes.toNat ≤ s.bodyOffset.toNat)
    (hhead : s.bodyOffset.toUInt32 ≤ s.packageMaxLength) (hint : s.packageMaxLength.toNat < 2 ^ 31)
    (h : Holds (.lengthField s) io T) (hT : T ≠ []) (hfuel : T.length < fuel) :
    Outcome (.lengthField s) T (io.hioUnpackByLengthField s fuel T.length) := by
  have hmax : T.length ≤ s.packageMaxLength.toNat := h.length_le.trans h.bound
  have hpos := List.length_pos_of_ne_nil hT
  have hTlen := h.length_le
  have hsame := lengthFieldLoop_eq fuel h.contents (hbe ▸ by decide) hfield (Nat.zero_le _)
    s.bodyOffset.toUInt32
  rw [List.drop_zero] at hsame
  rcases hloop : unpackLoop s fuel T s.bodyOffset.toUInt32 with _ | u <;> rw [hloop] at hsame
  · have hrun : io.hioUnpackByLengthField s fuel T.length = .error .fuel := by
      have hfuel : lengthFieldLoop s io.readbuf.base T.length fuel 0 s.bodyOffset.toUInt32 = .error .fuel := hsame
      simp only [ReadIo.hioUnpackByLengthField,h.head,hfuel,error_bind]
    rw [hrun]
    exact ⟨rfl,fun fs r hd => unpackLoop_eq_none hbe hfuel hloop ((drains_within hbe hmax).mpr hd)⟩
  obtain ⟨rest,hrest,hremain,hcut⟩ := hsame
  have htake := drains_of_unpackLoop hbe hloop
  have hdrains := (drains_within hbe hmax).mp htake
  obtain ⟨hlimit,hend⟩ := unpackLoop_end hbe hloop
  obtain ⟨io₁,hmove,hholds,hlen⟩ := h.moveRemain u.calls hrest
    (fun f hf _ _ heq => Setting.noConfusion heq)
  rw [← hremain] at hholds
  have hrun : io.hioUnpackByLengthField s fuel T.length =
      (io₁.growFor s u.packageLen).bind fun io => .ok (u.calls,io) := by
    simp only [ReadIo.hioUnpackByLengthField,h.head,hcut,hlimit,hmove,ok_bind,pure_eq_ok,Bool.false_eq_true,↓reduceIte]
    rfl
  rw [hrun]
  by_cases hr : u.remain = []
  · have htail : io₁.readbuf.tail = 0 := by rw [hholds.tail,hr,List.length_nil]
    have hgrow : io₁.growFor s u.packageLen = .ok io₁ := by rw [ReadIo.growFor,if_neg fun h => h.1 htail]
    have hroom : u.remain.length < io₁.readbuf.len := by
      rw [hr,List.length_nil]
      omega
    rw [hgrow]
    exact ⟨_,.pending hdrains fun hover => hover.1 hr,.pending ⟨hholds,hroom⟩⟩
  have hroom : u.remain.length < max u.packageLen.toNat io₁.readbuf.len := by
    cases hend with
    | package _ _ hlt => omega
    | behind _ hcalls _ =>
      have := htake.length_frames (takePackage_cut hbe)
      have := List.length_pos_of_ne_nil hcalls
      omega
    | head hlt _ hn =>
      rw [hn,UInt16.toNat_toUInt32]
      omega
  obtain ⟨io₂,hgrow,hkeep⟩ := hholds.growFor hint hr hroom
  rw [hgrow]
  by_cases hover : s.packageMaxLength < u.packageLen
  · rw [if_pos hover] at hkeep
    refine ⟨none,.gaveUp hdrains ?_,.closed hkeep⟩
    rw [UInt32.lt_iff_toNat_lt] at hover
    cases hend with
    | package hle hn _ => exact ⟨hr,hle,by rwa [← hn,UInt32.lt_iff_toNat_lt]⟩
    | behind _ _ hn => omega
    | head _ _ hn =>
      rw [hn] at hover
      exact absurd hhead (UInt32.not_le.mpr (UInt32.lt_iff_toNat_lt.mpr hover))
  · rw [if_neg hover] at hkeep
    refine ⟨_,.pending hdrains ?_,.pending hkeep⟩
    rintro ⟨-,hle,hannounced⟩
    cases hend with
    | package _ hn _ => exact hover (hn ▸ hannounced)
    | behind hlt _ _ => exact absurd hle (Nat.not_le.mpr hlt)
    | head hlt _ _ => exact absurd hle (Nat.not_le.mpr hlt)

/-- `hio_unpack`, whatever the mode. -/
theorem outcome_hioUnpack (hserved : setting.Served) (hint : setting.packageMaxLength.toNat < 2 ^ 31) {bs : Bytes}
    (h : Holds setting io (P ++ bs)) (hbs : bs ≠ []) (hP : P.length < setting.packageMaxLength.toNat)
    (hwait : setting.peel P = none) (hfuel : (P ++ bs).length < fuel) :
    Outcome setting (P ++ bs) (io.hioUnpack setting fuel P.length (P ++ bs).length) := by
  cases hserved with
  | fixedLength hn _ => exact outcome_fixedLength hn h hfuel
  | delimiter hd => exact outcome_delimiter hd hint h hbs hP hwait hfuel
  | lengthField hbe hfield _ hhead =>
    exact outcome_lengthField hbe hfield hhead hint h (List.append_ne_nil_of_right_ne_nil _ hbs) hfuel

/-- Between reads the buffer shrinks only while the pending bytes leave the smaller one room. -/
theorem Ready.autosize (h : Ready setting io P) (hint : setting.packageMaxLength.toNat < 2 ^ 31) :
    ∃ io', io.autosize = .ok io' ∧ Ready setting io' P := by
  have hfull : ¬ io.readbuf.tail = io.readbuf.len := by
    rw [h.tail]
    exact Nat.ne_of_lt h.room
  by_cases hsmall : io.readbuf.tail < io.readbuf.len / 2 ∧ 3 ≤ io.smallReadbytesCnt
  · have hcnt : io.smallReadbytesCnt ≠ 0 := fun h0 => absurd hsmall.2 (by rw [h0]; decide)
    have hlarge : (∀ max n, setting ≠ .fixedLength max n) ∧ readBufsizeHighWater < io.readbuf.len := by
      have hsized := h.sized
      cases setting with
      | fixedLength max n => exact absurd hsized.2 hcnt
      | delimiter max d => exact ⟨fun _ _ heq => Setting.noConfusion heq,hsized.2 hcnt⟩
      | lengthField s => exact ⟨fun _ _ heq => Setting.noConfusion heq,hsized.2 hcnt⟩
    have hbound := h.bound
    have htail := h.tail
    have hwater : readBufsizeHighWater = 65536 := rfl
    have hfirst : hloopReadBufsize = 8192 := rfl
    obtain ⟨io',halloc,hready⟩ := h.toHolds.hioAllocReadbuf hint (io.readbuf.len / 2) hlarge.1 (by omega)
      (by omega) (by omega)
    exact ⟨io',by rw [ReadIo.autosize,if_neg hfull,if_pos hsmall,halloc],hready⟩
  · exact ⟨io,by rw [ReadIo.autosize,if_neg hfull,if_neg hsmall],h⟩

theorem Ready.resetEmpty (h : Ready setting io P) : io.resetEmpty = io := by
  by_cases htail : io.readbuf.head = io.readbuf.tail
  · have hhead := h.head
    rw [hhead] at htail
    obtain ⟨⟨base,head,tail⟩,max,cnt,closing,closed⟩ := io
    obtain ⟨rfl,rfl⟩ : head = 0 ∧ tail = 0 := ⟨hhead,htail.symm⟩
    rfl
  · rw [ReadIo.resetEmpty,if_neg htail]

theorem Outcome.hioHandleRead {buf ep : ℕ} (hint : setting.packageMaxLength.toNat < 2 ^ 31)
    (h : Outcome setting T (io.hioUnpack setting fuel buf ep)) :
    Outcome setting T (io.hioHandleRead setting fuel buf ep) := by
  unfold ReadIo.hioHandleRead
  rcases hunpack : io.hioUnpack setting fuel buf ep with t | ⟨calls,io'⟩ <;> rw [hunpack] at h
  · exact h
  obtain ⟨o,hreads,hkeeps⟩ := h
  cases hkeeps with
  | closed hclosed =>
    simp only [ok_bind,hclosed,↓reduceIte]
    exact ⟨none,hreads,.closed hclosed⟩
  | @pending r hready =>
    obtain ⟨io'',hauto,hready'⟩ := hready.autosize hint
    simp only [ok_bind,hready.opened,Bool.false_eq_true,↓reduceIte,hready.resetEmpty,hauto,pure_eq_ok]
    exact ⟨some r,hreads,.pending hready'⟩

/-- What one readable event of a connection comes to, when the stream so far is `c`. -/
def Event (setting : Setting) (c queue : Bytes) (fs : List Bytes) :
    Except Trap (List Bytes × ReadIo × Bytes) → Prop
  | .ok (calls,io,rest) => ∃ got o, queue = got ++ rest ∧ Reads setting.peel setting.exceeds (c ++ got) (fs ++ calls) o ∧
      Keeps setting io o
  | .error t => t = .fuel ∧ ∃ got, got <+: queue ∧ ∀ gs r, ¬ Drains setting.peel (c ++ got) gs r

section Run
variable (hserved : setting.Served) (hint : setting.packageMaxLength.toNat < 2 ^ 31)
  (hfuel : setting.packageMaxLength.toNat < fuel) {c : Bytes} {fs : List Bytes}
include hserved hint hfuel

/-- A readable event finds room in the buffer and keeps it for the next one. -/
theorem nioRead_event (hreads : Reads setting.peel setting.exceeds c fs (some P)) (h : Ready setting io P) (queue : Bytes)
    (count : ℕ) :
    Event setting c queue fs (io.nioRead setting fuel queue count) := by
  have hroom := h.room
  have htail := h.tail
  have hfree : ¬ io.readbuf.len - P.length = 0 := by omega
  obtain ⟨hdrains,hover⟩ : Drains setting.peel c fs P ∧ ¬ setting.exceeds P := by
    cases hreads with
    | pending hd ho => exact ⟨hd,ho⟩
  obtain ⟨bs,hbs⟩ : ∃ bs, queue.take (min count (io.readbuf.len - P.length)) = bs := ⟨_,rfl⟩
  by_cases hnone : bs = []
  · simp only [ReadIo.nioRead,htail,hfree,↓reduceIte,hbs,hnone,pure_eq_ok]
    exact ⟨[],some P,rfl,by simpa using hreads,.pending h⟩
  have hle : P.length + bs.length ≤ io.readbuf.len := by
    rw [← hbs,List.length_take]
    omega
  have hqueue : queue = bs ++ queue.drop bs.length := by
    have hpre : bs <+: queue := hbs ▸ List.take_prefix _ _
    rw [List.prefix_iff_eq_append.mp hpre]
  obtain ⟨base,hstore,hlen,hpre⟩ := store_prefix h.contents hle
  have hholds : Holds setting { io with readbuf := { io.readbuf with base, tail := P.length + bs.length } } (P ++ bs) :=
    ⟨h.opened,h.stays,h.head,List.length_append.symm,hpre,hlen.trans_le h.bound,h.maxSize,by
      have hsized := h.sized
      rwa [FifoBuf.len,← hlen] at hsized⟩
  have hP : P.length < setting.packageMaxLength.toNat := hroom.trans_le h.bound
  have hT := hholds.length_le.trans hholds.bound
  have hout := (outcome_hioUnpack hserved hint hholds hnone hP hdrains.waits
    (show _ < fuel by omega)).hioHandleRead hint
  simp only [ReadIo.nioRead,htail,hfree,↓reduceIte,hbs,hnone,hstore,checked_some,ok_bind]
  rw [List.length_append] at hout
  rcases hrun : ReadIo.hioHandleRead setting fuel
      { io with readbuf := { io.readbuf with base, tail := P.length + bs.length } } P.length
      (P.length + bs.length) with t | ⟨calls,io'⟩ <;> rw [hrun] at hout
  · refine ⟨hout.1,bs,hqueue ▸ List.prefix_append _ _,fun gs r hd => ?_⟩
    obtain ⟨hs,hd'⟩ := hserved.limited.drains_rest hdrains hd
    exact hout.2 hs r hd'
  · obtain ⟨o,hnew,hkeeps⟩ := hout
    exact ⟨bs,o,hqueue,hserved.limited.reads_more hreads hnew,hkeeps⟩

/-- Any number of readable events. -/
theorem nioReads_event {o : Option Bytes} (hreads : Reads setting.peel setting.exceeds c fs o) (h : Keeps setting io o)
    (queue : Bytes) (counts : List ℕ) : Event setting c queue fs (io.nioReads setting fuel queue counts) := by
  induction counts generalizing io c queue fs o with
  | nil => exact ⟨[],o,rfl,by simpa using hreads,h⟩
  | cons count counts ih =>
    cases h with
    | closed hclosed =>
      simp only [ReadIo.nioReads,hclosed,↓reduceIte]
      exact ⟨[],none,rfl,by simpa using hreads,.closed hclosed⟩
    | pending hready =>
      have hevent := nioRead_event hserved hint hfuel hreads hready queue count
      simp only [ReadIo.nioReads,hready.opened,Bool.false_eq_true,↓reduceIte]
      rcases hread : io.nioRead setting fuel queue count with t | ⟨calls,io',rest⟩ <;> rw [hread] at hevent
      · exact hevent
      obtain ⟨got,o',rfl,hreads',hkeeps'⟩ := hevent
      have hnext := ih hreads' hkeeps' rest
      simp only [ok_bind]
      rcases hrun : io'.nioReads setting fuel rest counts with t | ⟨calls',io'',rest'⟩ <;> rw [hrun] at hnext
      · obtain ⟨ht,got',hgot',hstuck⟩ := hnext
        refine ⟨ht,got ++ got',List.prefix_append_right_inj got |>.mpr hgot',fun gs r hd => ?_⟩
        exact hstuck gs r (by rwa [List.append_assoc])
      · obtain ⟨got',o'',rfl,hreads'',hkeeps''⟩ := hnext
        exact ⟨got ++ got',o'',(List.append_assoc ..).symm,by simpa only [List.append_assoc] using hreads'',hkeeps''⟩

end Run

theorem Setting.packageMaxLength_withDefault_ne (setting : Setting) : setting.withDefault.packageMaxLength ≠ 0 := by
  have hne : ∀ max, defaultLength max ≠ 0 := by
    intro max
    by_cases h0 : max = 0
    · simp only [defaultLength,h0,↓reduceIte]
      decide
    · rwa [defaultLength,if_neg h0]
  cases setting <;> exact hne _

/-- A served setting passes its assertion and gives the connection a buffer to read into. -/
theorem hioSetUnpack_ready (hserved : setting.withDefault.Served)
    (hint : setting.withDefault.packageMaxLength.toNat < 2 ^ 31) :
    ∃ io, ReadIo.hioSetUnpack setting = .ok (setting.withDefault,io) ∧ Ready setting.withDefault io [] := by
  have hne := setting.packageMaxLength_withDefault_ne
  obtain ⟨s,hs⟩ : ∃ s, setting.withDefault = s := ⟨_,rfl⟩
  rw [hs] at hserved hint hne ⊢
  have hpos : 0 < s.packageMaxLength.toNat := Nat.pos_of_ne_zero fun h0 => hne (UInt32.toNat_inj.mp h0)
  have hwater : hloopReadBufsize = 8192 := rfl
  obtain ⟨hassert,hlow,hhigh,hsized⟩ : s.asserted = true ∧ 0 < s.readbufLen ∧
      s.readbufLen ≤ s.packageMaxLength.toNat ∧ s.Sized s.readbufLen 0 := by
    cases hserved with
    | fixedLength hn hmax =>
      exact ⟨by simpa [Setting.asserted] using ⟨hn,hmax⟩,Nat.pos_of_ne_zero fun h0 => hn (UInt32.toNat_inj.mp h0),
        UInt32.le_iff_toNat_le.mp hmax,rfl,rfl⟩
    | delimiter _ =>
      refine ⟨rfl,?_,Nat.min_le_right _ _,le_rfl,fun h0 => absurd rfl h0⟩
      simp only [Setting.readbufLen,Setting.packageMaxLength] at hpos ⊢
      omega
    | lengthField _ hfield _ _ =>
      refine ⟨by simpa [Setting.asserted] using hfield,?_,Nat.min_le_right _ _,le_rfl,fun h0 => absurd rfl h0⟩
      simp only [Setting.readbufLen,Setting.packageMaxLength] at hpos ⊢
      omega
  have hlen : (realloc 0 ([] : Bytes) s.readbufLen).length = s.readbufLen := length_realloc _ _ _
  refine ⟨{ readbuf := ⟨realloc 0 [] s.readbufLen,0,0⟩, maxReadBufsize := s.packageMaxLength },?_,
    ⟨⟨rfl,rfl,rfl,rfl,List.nil_prefix,hlen.trans_le hhigh,rfl,by rwa [FifoBuf.len,hlen]⟩,hlow.trans_eq hlen.symm⟩⟩
  have hle : ¬ s.packageMaxLength.toNat < s.readbufLen := by omega
  have hbig : ¬ 2 ^ 31 ≤ s.readbufLen := by omega
  simp only [ReadIo.hioSetUnpack,hs,hassert,not_true_eq_false,↓reduceIte,ReadIo.hioAllocReadbuf,hle,hbig,ok_bind,
    pure_eq_ok]

/-- An empty stream has nothing to hand out. -/
theorem Setting.Served.reads_nil (hserved : setting.Served) (hne : setting.packageMaxLength ≠ 0) :
    Reads setting.peel setting.exceeds [] [] (some []) := by
  cases hserved with
  | @fixedLength max n hn _ =>
    have hpos : ¬ n.toNat ≤ 0 := fun h0 => hn (UInt32.toNat_inj.mp (Nat.le_zero.mp h0))
    exact .pending (.wait (by simp only [Setting.peel,List.length_nil,hpos,↓reduceIte])) id
  | delimiter _ =>
    exact .pending (.wait rfl) fun hover => hne (UInt32.toNat_inj.mp (Nat.le_zero.mp hover.2))
  | @lengthField s _ _ hbody _ =>
    have hpos : ¬ s.bodyOffset.toNat ≤ 0 := fun h0 => hbody (UInt16.toNat_inj.mp (Nat.le_zero.mp h0))
    exact .pending (.wait (by simp [Setting.peel,takePackage,hpos])) fun hover => hover.1 rfl

/-- Every run of a new connection: no assertion fails and no access leaves the buffer, which holds
the pending bytes and is never longer than `package_max_length`. -/
theorem nioReads_new (hserved : setting.withDefault.Served)
    (hint : setting.withDefault.packageMaxLength.toNat < 2 ^ 31)
    (hfuel : setting.withDefault.packageMaxLength.toNat < fuel) (queue : Bytes) (counts : List ℕ) :
    ∃ io, ReadIo.hioSetUnpack setting = .ok (setting.withDefault,io) ∧
      Event setting.withDefault [] queue [] (io.nioReads setting.withDefault fuel queue counts) := by
  obtain ⟨io,hset,hready⟩ := hioSetUnpack_ready hserved hint
  have hnil := hserved.reads_nil setting.packageMaxLength_withDefault_ne
  exact ⟨io,hset,nioReads_event hserved hint hfuel hnil (.pending hready) queue counts⟩

/-- A setting for packages of two bytes. -/
theorem nioReads_new_pairs : ∃ io, ReadIo.hioSetUnpack (.fixedLength 4 2) = .ok (.fixedLength 4 2,io) ∧
    Event (.fixedLength 4 2) [] [1,2,3] [] (io.nioReads (.fixedLength 4 2) 5 [1,2,3] [1,5,1]) :=
  nioReads_new (show (Setting.fixedLength 4 2).withDefault.Served from .fixedLength (by decide) (by decide))
    (by decide) (by decide) _ _

/-! ### Progress and segmentation -/

theorem nioRead_rest {io' : ReadIo} {count : ℕ} {queue rest : Bytes} {calls : List Bytes}
    (h : io.nioRead setting fuel queue count = .ok (calls,io',rest)) :
    io.readbuf.tail < io.readbuf.len ∧ rest = queue.drop (min count (io.readbuf.len - io.readbuf.tail)) := by
  by_cases hfull : io.readbuf.len - io.readbuf.tail = 0
  · exact absurd h (by simp [ReadIo.nioRead,hfull,throw,throwThe,MonadExceptOf.throw])
  refine ⟨by omega,?_⟩
  by_cases hnone : queue.take (min count (io.readbuf.len - io.readbuf.tail)) = []
  · simp only [ReadIo.nioRead,hfull,↓reduceIte,hnone,pure_eq_ok,Except.ok.injEq,Prod.mk.injEq] at h
    obtain ⟨-,-,rfl⟩ := h
    rcases List.take_eq_nil_iff.mp hnone with h0 | rfl
    · rw [h0,List.drop_zero]
    · rw [List.drop_nil]
  · simp only [ReadIo.nioRead,hfull,↓reduceIte,hnone] at h
    obtain ⟨base,-,h⟩ := bind_eq_ok.mp h
    obtain ⟨⟨calls',io''⟩,-,h⟩ := bind_eq_ok.mp h
    obtain ⟨-,-,rfl⟩ := Prod.mk.inj (Except.ok.inj h) |>.imp id Prod.mk.inj
    rw [List.length_take,List.drop_eq_drop_iff]
    omega

/-- Each event takes at least a byte while the socket has any. -/
theorem nioReads_progress {io' : ReadIo} {queue rest : Bytes} {calls : List Bytes} {counts : List ℕ}
    (hpos : ∀ count ∈ counts, 0 < count) (hlen : queue.length ≤ counts.length)
    (h : io.nioReads setting fuel queue counts = .ok (calls,io',rest)) : io'.closed = true ∨ rest = [] := by
  induction counts generalizing io queue calls with
  | nil =>
    obtain ⟨-,-,rfl⟩ := Prod.mk.inj (Except.ok.inj h) |>.imp id Prod.mk.inj
    exact Or.inr (List.length_eq_zero_iff.mp (Nat.le_zero.mp hlen))
  | cons count counts ih =>
    by_cases hclosed : io.closed = true
    · simp only [ReadIo.nioReads,hclosed,↓reduceIte,Except.ok.injEq,Prod.mk.injEq] at h
      obtain ⟨-,rfl,-⟩ := h
      exact Or.inl hclosed
    · simp only [ReadIo.nioReads,hclosed,Bool.false_eq_true,↓reduceIte] at h
      obtain ⟨⟨calls₁,io₁,rest₁⟩,hread,h⟩ := bind_eq_ok.mp h
      obtain ⟨⟨calls₂,io₂,rest₂⟩,hrun,h⟩ := bind_eq_ok.mp h
      obtain ⟨-,rfl,rfl⟩ := Prod.mk.inj (Except.ok.inj h) |>.imp id Prod.mk.inj
      obtain ⟨hroom,hrest⟩ := nioRead_rest hread
      have hcount := hpos count List.mem_cons_self
      refine ih (fun count hmem => hpos count (List.mem_cons_of_mem _ hmem)) ?_ hrun
      rw [hrest,List.length_drop]
      rw [List.length_cons] at hlen
      omega

theorem Keeps.eq {o : Option Bytes} (h : Keeps setting io o) :
    o = if io.closed then none else some (io.readbuf.base.take io.readbuf.tail) := by
  cases h with
  | closed hclosed => rw [if_pos hclosed]
  | pending hready =>
    rw [if_neg (by simp [hready.opened]),hready.tail,← List.prefix_iff_eq_take.mp hready.contents]

theorem Keeps.reads_all {c : Bytes} {fs : List Bytes} {o : Option Bytes} (hserved : setting.Served)
    (h : Keeps setting io o) (hreads : Reads setting.peel setting.exceeds c fs o) {rest : Bytes}
    (hdone : io.closed = true ∨ rest = []) : Reads setting.peel setting.exceeds (c ++ rest) fs
      (if io.closed then none else some (io.readbuf.base.take io.readbuf.tail)) := by
  rw [h.eq] at hreads
  refine hserved.limited.reads_all hreads fun ho => hdone.resolve_left fun hclosed => ho ?_
  rw [if_pos hclosed]

/-- Two runs hand out the same packages, close or keep the connection alike and are left with the same
bytes, or both never end. -/
def SameOutcome : Except Trap (List Bytes × ReadIo × Bytes) → Except Trap (List Bytes × ReadIo × Bytes) → Prop
  | .ok (calls₁,io₁,_), .ok (calls₂,io₂,_) => calls₁ = calls₂ ∧ io₁.closed = io₂.closed ∧
      (io₁.closed = false → io₁.readbuf.base.take io₁.readbuf.tail = io₂.readbuf.base.take io₂.readbuf.tail)
  | .error t₁, .error t₂ => t₁ = .fuel ∧ t₂ = .fuel
  | _, _ => False

/-- When one way to cut the stream gets through it, no other way hangs. -/
theorem Event.not_stuck (hserved : setting.Served) {queue : Bytes} {fs : List Bytes} {o : Option Bytes} {t : Trap}
    (hall : Reads setting.peel setting.exceeds queue fs o) (h : Event setting [] queue [] (.error t)) : False := by
  obtain ⟨-,got,⟨y,rfl⟩,hstuck⟩ := h
  obtain ⟨r,hd⟩ := hall.drains
  obtain ⟨gs,r',hd'⟩ := hserved.limited.drains_prefix hd
  exact hstuck gs r' hd'

/-- However the socket cuts a stream into reads, the outcome is the same. -/
theorem nioReads_segmentation (hserved : setting.withDefault.Served)
    (hint : setting.withDefault.packageMaxLength.toNat < 2 ^ 31)
    (hfuel : setting.withDefault.packageMaxLength.toNat < fuel) (queue : Bytes) (counts₁ counts₂ : List ℕ)
    (hpos₁ : ∀ count ∈ counts₁, 0 < count) (hpos₂ : ∀ count ∈ counts₂, 0 < count)
    (hlen₁ : queue.length ≤ counts₁.length) (hlen₂ : queue.length ≤ counts₂.length) :
    ∃ io, ReadIo.hioSetUnpack setting = .ok (setting.withDefault,io) ∧
      SameOutcome (io.nioReads setting.withDefault fuel queue counts₁)
        (io.nioReads setting.withDefault fuel queue counts₂) := by
  obtain ⟨io,hset,hready⟩ := hioSetUnpack_ready hserved hint
  have hnil := hserved.reads_nil setting.packageMaxLength_withDefault_ne
  have hevent₁ := nioReads_event hserved hint hfuel hnil (.pending hready) queue counts₁
  have hevent₂ := nioReads_event hserved hint hfuel hnil (.pending hready) queue counts₂
  refine ⟨io,hset,?_⟩
  have hall : ∀ {counts calls io' rest}, (∀ count ∈ counts, 0 < count) → queue.length ≤ counts.length →
      io.nioReads setting.withDefault fuel queue counts = .ok (calls,io',rest) →
      Event setting.withDefault [] queue [] (.ok (calls,io',rest)) →
      Reads setting.withDefault.peel setting.withDefault.exceeds queue calls
        (if io'.closed then none else some (io'.readbuf.base.take io'.readbuf.tail)) := by
    rintro counts calls io' rest hpos hlen hrun ⟨got,o,rfl,hreads,hkeeps⟩
    exact hkeeps.reads_all hserved hreads (nioReads_progress hpos hlen hrun)
  rcases h₁ : io.nioReads setting.withDefault fuel queue counts₁ with t₁ | ⟨calls₁,io₁,rest₁⟩ <;> rw [h₁] at hevent₁ <;>
    rcases h₂ : io.nioReads setting.withDefault fuel queue counts₂ with t₂ | ⟨calls₂,io₂,rest₂⟩ <;> rw [h₂] at hevent₂
  · exact ⟨hevent₁.1,hevent₂.1⟩
  · exact (hevent₁.not_stuck hserved (hall hpos₂ hlen₂ h₂ hevent₂)).elim
  · exact (hevent₂.not_stuck hserved (hall hpos₁ hlen₁ h₁ hevent₁)).elim
  · obtain ⟨rfl,ho⟩ := (hall hpos₁ hlen₁ h₁ hevent₁).unique (hall hpos₂ hlen₂ h₂ hevent₂)
    refine ⟨rfl,?_⟩
    cases hc₁ : io₁.closed <;> cases hc₂ : io₂.closed <;> rw [hc₁,hc₂] at ho
    · exact ⟨rfl,fun _ => Option.some.inj ho⟩
    · exact absurd ho (Option.some_ne_none _)
    · exact absurd ho (Option.some_ne_none _).symm
    · exact ⟨rfl,fun h => Bool.noConfusion h⟩

/-- Lines that end in `\r\n`, byte by byte and all at once. -/
theorem nioReads_segmentation_lines : ∃ io,
    ReadIo.hioSetUnpack (.delimiter 8 [13,10]) = .ok (.delimiter 8 [13,10],io) ∧
      SameOutcome (io.nioReads (.delimiter 8 [13,10]) 9 [1,13,13,10,2,13] [1,1,1,1,1,1])
        (io.nioReads (.delimiter 8 [13,10]) 9 [1,13,13,10,2,13] [6,6,6,6,6,6]) :=
  nioReads_segmentation (show (Setting.delimiter 8 [13,10]).withDefault.Served from .delimiter (by decide)) (by decide)
    (by decide) _ _ _ (by decide) (by decide) (by decide) (by decide)

end FDemo.Libhv
