import FDemo.Libhv.WriteBuffer

/-! # What is written arrives in order

While a connection is open, what the socket took and what is queued are together
the bytes that were accepted, in the order of the calls; the queue is counted
right, stays below `max_write_bufsize`, and is not empty only while `HV_WRITE` is
watched for. So nothing is lost, doubled or left lying.
-/
namespace FDemo.Libhv

def OffsetBuf.remaining (b : OffsetBuf) : Bytes := b.base.drop b.offset

/-- An open connection whose queue holds the bytes `P`. -/
structure Queued (max : UInt32) (io : WriteIo) (P : Bytes) : Prop where
  limit : io.maxWriteBufsize = max
  opened : io.closed = false
  queue : ∃ bufs, io.writeQueue.Holds bufs ∧ (∀ b ∈ bufs, b.remaining ≠ []) ∧ P = bufs.flatMap OffsetBuf.remaining
  size : io.writeBufsize.toNat = P.length
  bound : P.length ≤ max.toNat
  watches : P ≠ [] → io.hvWrite = true

/-- Between two steps a connection that is to be closed has something left to write. -/
structure Writes (max : UInt32) (io : WriteIo) (P : Bytes) : Prop extends Queued max io P where
  lingers : io.close = true → P ≠ []

/-- The connection is closed and the bytes are dropped, or they are still queued. -/
def Left (max : UInt32) (io : WriteIo) (P : Bytes) : Prop := io.closed = true ∨ Writes max io P

variable {max : UInt32} {io : WriteIo} {P buf : Bytes} {fuel : ℕ}

theorem Queued.empty_iff (h : Queued max io P) : io.writeQueue.size = 0 ↔ P = [] := by
  obtain ⟨bufs,hholds,hne,rfl⟩ := h.queue
  rw [hholds.size,List.length_eq_zero_iff,List.flatMap_eq_nil_iff]
  constructor
  · rintro rfl b hb
    exact absurd hb List.not_mem_nil
  · intro hnil
    by_contra hbufs
    obtain ⟨b,hb⟩ := List.exists_mem_of_ne_nil _ hbufs
    exact hne b hb (hnil b hb)

def Send.Positive (send : Send) : Prop := ∃ count, send = .wrote (count + 1)

/-- The socket is fine, and may be full. -/
def Send.Alive (send : Send) : Prop := send = .again ∨ send.Positive

namespace WriteIo

/-- What has been asked for about closing. -/
def closeState (io : WriteIo) : Bool × ℕ × Bool := (io.close,io.closing,io.closeTimer)

/-- Bytes that are queued, or a write that fails because they would be too many. -/
theorem enqueue_queued (h : Writes max io P) (hwatch : io.hvWrite = true) {n : ℕ} (hn : n ≤ buf.length) :
    ∃ io' ret, io.enqueue buf n = .ok (io',ret) ∧
      (ret = n ∧ Writes max io' (P ++ buf.drop n) ∧ io'.closeState = io.closeState ∨
      ret = -1 ∧ Writes max io' P ∧ max.toNat < P.length + (buf.length - n)) := by
  have hsize := h.size
  have hbound := h.bound
  have hlimit := congrArg UInt32.toNat h.limit
  by_cases hlt : n < buf.length
  · by_cases hover : io.maxWriteBufsize.toNat < io.writeBufsize.toNat + buf.length - n
    · refine ⟨_,_,by rw [enqueue,if_pos hlt,if_pos hover],Or.inr ⟨rfl,?_,by omega⟩⟩
      exact ⟨⟨h.limit,h.opened,h.queue,h.size,h.bound,h.watches⟩,h.lingers⟩
    obtain ⟨bufs,hholds,hne,hP⟩ := h.queue
    have hqueue : (if io.writeQueue.maxsize = 0 then Queue.init {} 4 else io.writeQueue).Holds bufs := by
      split
      · have hroom := hholds.room
        obtain rfl : bufs = [] := List.length_eq_zero_iff.mp (by omega)
        exact Queue.holds_init 4
      · exact hholds
    obtain ⟨queue,hpush,hqueue'⟩ := hqueue.pushBack {} { base := buf.drop n }
    have hmax := max.toNat_lt
    have hcount : (io.writeBufsize + UInt32.ofNat (buf.length - n)).toNat = (P ++ buf.drop n).length := by
      rw [UInt32.toNat_add,UInt32.toNat_ofNat',List.length_append,List.length_drop]
      omega
    refine ⟨{ io with writeQueue := queue, writeBufsize := io.writeBufsize + UInt32.ofNat (buf.length - n) },n,?_,
      Or.inl ⟨rfl,⟨⟨h.limit,h.opened,⟨_,hqueue',?_,?_⟩,hcount,?_,fun _ => hwatch⟩,fun hclose => ?_⟩,rfl⟩⟩
    · simp only [enqueue,hlt,hover,↓reduceIte,hpush,checked_some,ok_bind,pure_eq_ok]
    · intro b hb
      rcases List.mem_append.mp hb with hb | hb
      · exact hne b hb
      · obtain rfl := List.mem_singleton.mp hb
        simpa [OffsetBuf.remaining] using hlt
    · rw [hP,List.flatMap_append]
      simp [OffsetBuf.remaining]
    · rw [List.length_append,List.length_drop]
      omega
    · exact fun hnil => h.lingers hclose (List.append_eq_nil_iff.mp hnil).1
  · obtain rfl : n = buf.length := by omega
    refine ⟨io,_,by rw [enqueue,if_neg hlt],Or.inl ⟨rfl,?_,rfl⟩⟩
    rwa [List.drop_length,List.append_nil]

end WriteIo

/-- The bytes that a write takes responsibility for. A write that fails may have sent a part. -/
def accepted (buf : Bytes) (ret : ℤ) (bytes : Bytes) : Bytes := if 0 ≤ ret then buf else bytes

theorem Writes.watched (h : Writes max io P) : Writes max { io with hvWrite := true } P :=
  ⟨⟨h.limit,h.opened,h.queue,h.size,h.bound,fun _ => rfl⟩,h.lingers⟩

theorem Writes.hioCloseAsync (h : Writes max io P) : Writes max io.hioCloseAsync P :=
  ⟨⟨h.limit,h.opened,h.queue,h.size,h.bound,h.watches⟩,h.lingers⟩

theorem Writes.withError (h : Writes max io P) (err : ℕ) : Writes max { io with error := err } P :=
  ⟨⟨h.limit,h.opened,h.queue,h.size,h.bound,h.watches⟩,h.lingers⟩

/-- A write keeps the order, and it succeeds when the socket is fine and the bytes fit. -/
theorem Writes.hioWrite (h : Writes max io P) (buf : Bytes) (send : Send) : ∃ io' ret bytes P',
    io.hioWrite buf send = .ok (io',ret,bytes) ∧ Writes max io' P' ∧ P ++ accepted buf ret bytes = bytes ++ P' ∧
      (buf ≠ [] → send.Alive → P.length + buf.length ≤ max.toNat → 0 ≤ ret ∧ io'.closeState = io.closeState) := by
  have hopen : ¬ io.closed = true := by simp [h.opened]
  by_cases hempty : io.writeQueue.size = 0
  · obtain rfl := h.empty_iff.mp hempty
    cases send with
    | again =>
      obtain ⟨io',ret,henq,hcases⟩ := WriteIo.enqueue_queued h.watched rfl (Nat.zero_le buf.length)
      have hrun : io.hioWrite buf .again = .ok (io',ret,[]) := by
        rw [WriteIo.hioWrite,if_neg hopen,if_pos hempty,henq]
        rfl
      rcases hcases with ⟨rfl,hq,hstate⟩ | ⟨rfl,hq,hover⟩
      · exact ⟨io',_,[],_,hrun,hq,rfl,fun _ _ _ => ⟨le_rfl,hstate⟩⟩
      · exact ⟨io',_,[],_,hrun,hq,rfl,fun _ _ hfits => absurd hfits (by simpa using hover)⟩
    | failed err =>
      refine ⟨_,-1,[],[],by rw [WriteIo.hioWrite,if_neg hopen,if_pos hempty],(h.withError err).hioCloseAsync,rfl,?_⟩
      rintro - (halive | ⟨_,halive⟩) - <;> exact Send.noConfusion halive
    | wrote count =>
      by_cases hzero : min count buf.length = 0
      · refine ⟨_,-1,[],[],by rw [WriteIo.hioWrite,if_neg hopen,if_pos hempty,if_pos hzero],h.hioCloseAsync,rfl,?_⟩
        rintro hbuf (halive | ⟨c,halive⟩) -
        · exact Send.noConfusion halive
        · obtain rfl := Send.wrote.inj halive
          have := List.length_pos_of_ne_nil hbuf
          omega
      by_cases hall : min count buf.length = buf.length
      · refine ⟨io,_,buf,[],by rw [WriteIo.hioWrite,if_neg hopen,if_pos hempty,if_neg hzero,if_pos hall],h,?_,
          fun _ _ _ => ⟨Int.natCast_nonneg _,rfl⟩⟩
        rw [accepted,if_pos (Int.natCast_nonneg _),List.append_nil,List.nil_append]
      · obtain ⟨io',ret,henq,hcases⟩ := WriteIo.enqueue_queued h.watched rfl (Nat.min_le_right count buf.length)
        have hrun : io.hioWrite buf (.wrote count) = .ok (io',ret,buf.take (min count buf.length)) := by
          rw [WriteIo.hioWrite,if_neg hopen,if_pos hempty,if_neg hzero,if_neg hall,henq]
          rfl
        rcases hcases with ⟨rfl,hq,hstate⟩ | ⟨rfl,hq,hover⟩
        · refine ⟨io',_,_,_,hrun,hq,?_,fun _ _ _ => ⟨Int.natCast_nonneg _,hstate⟩⟩
          rw [accepted,if_pos (Int.natCast_nonneg _),List.nil_append,List.nil_append,List.take_append_drop]
        · exact ⟨io',_,_,_,hrun,hq,by rw [List.append_nil]; rfl,fun _ _ hfits => absurd hover (by omega)⟩
  · have hne : P ≠ [] := fun hnil => hempty (h.empty_iff.mpr hnil)
    obtain ⟨io',ret,henq,hcases⟩ := WriteIo.enqueue_queued h (h.watches hne) (Nat.zero_le buf.length)
    have hrun : io.hioWrite buf send = .ok (io',ret,[]) := by
      unfold WriteIo.hioWrite
      rw [if_neg hopen,if_neg hempty,henq]
      rfl
    rcases hcases with ⟨rfl,hq,hstate⟩ | ⟨rfl,hq,hover⟩
    · exact ⟨io',_,[],_,hrun,hq,rfl,fun _ _ _ => ⟨le_rfl,hstate⟩⟩
    · exact ⟨io',_,[],_,hrun,hq,List.append_nil P,fun _ _ hfits => absurd hover (by omega)⟩

theorem Queued.hioClose (h : Queued max io P) : Left max io.hioClose P := by
  have hopen : ¬ io.closed = true := by simp [h.opened]
  by_cases hdefer : io.writeQueue.size ≠ 0 ∧ io.error = 0 ∧ ¬ io.close = true
  · rw [WriteIo.hioClose,if_neg hopen,if_pos hdefer]
    exact Or.inr ⟨⟨h.limit,h.opened,h.queue,h.size,h.bound,h.watches⟩,fun _ => fun hnil => hdefer.1 (h.empty_iff.mpr hnil)⟩
  · rw [WriteIo.hioClose,if_neg hopen,if_neg hdefer]
    exact Or.inl rfl

/-! ### The first buffer of the queue -/

theorem Queued.drop_bound (h : Queued max io P) (n : ℕ) : (P.drop n).length ≤ max.toNat := by
  have hbound := h.bound
  rw [List.length_drop]
  omega

section Front
variable {b : OffsetBuf} {bufs : List OffsetBuf} {n : ℕ} (h : Queued max io P) (hholds : io.writeQueue.Holds (b :: bufs))
  (hne : ∀ b' ∈ b :: bufs, b'.remaining ≠ []) (hP : P = (b :: bufs).flatMap OffsetBuf.remaining)
  (hn : n ≤ b.remaining.length)
include hP hn

theorem split_front : P = b.remaining.take n ++ P.drop n ∧
    P.drop n = b.remaining.drop n ++ bufs.flatMap OffsetBuf.remaining := by
  rw [List.flatMap_cons] at hP
  refine ⟨?_,by rw [hP,List.drop_append_of_le_length hn]⟩
  have hfront : (b.remaining ++ bufs.flatMap OffsetBuf.remaining).take n = b.remaining.take n :=
    List.take_append_of_le_length hn
  rw [← hfront,← hP,List.take_append_drop]

theorem length_le_front : n ≤ P.length := by
  rw [hP,List.flatMap_cons,List.length_append]
  omega

include h

theorem Queued.size_advance (i : ℕ) : (io.advance i b n).writeBufsize.toNat = (P.drop n).length := by
  have hle := length_le_front hP hn
  have hsize := h.size
  have hlt := io.writeBufsize.toNat_lt
  have hcount : (UInt32.ofNat n).toNat = n := by
    rw [UInt32.toNat_ofNat']
    omega
  have hle' : UInt32.ofNat n ≤ io.writeBufsize := by
    rw [UInt32.le_iff_toNat_le,hcount]
    omega
  rw [WriteIo.advance,UInt32.toNat_sub_of_le _ _ hle',hcount,hsize,List.length_drop]

include hholds hne

/-- A part of the buffer is sent. -/
theorem Queued.advance (hlt : n < b.remaining.length) : Writes max (io.advance io.writeQueue.offset b n) (P.drop n) := by
  have hrest : ({ b with offset := b.offset + n } : OffsetBuf).remaining = b.remaining.drop n := by
    simp only [OffsetBuf.remaining,List.drop_drop]
  have hpart : b.remaining.drop n ≠ [] := by
    rw [Ne,List.drop_eq_nil_iff]
    omega
  have hdrop := (split_front hP hn).2
  have hleft : P.drop n ≠ [] := by
    rw [hdrop]
    exact List.append_ne_nil_of_left_ne_nil hpart _
  have hnil : P ≠ [] := fun hnil => hleft (by rw [hnil,List.drop_nil])
  refine ⟨⟨h.limit,h.opened,⟨_,hholds.set _,fun b' hb' => ?_,?_⟩,h.size_advance hP hn _,h.drop_bound n,
    fun _ => h.watches hnil⟩,fun _ => hleft⟩
  · rcases List.mem_cons.mp hb' with rfl | hb'
    · rwa [hrest]
    · exact hne b' (List.mem_cons_of_mem b hb')
  · rw [List.flatMap_cons,hrest,hdrop]

/-- The whole buffer is sent and leaves the queue. -/
theorem Queued.popFront (hall : n = b.remaining.length) : ∃ io', (io.advance io.writeQueue.offset b n).popFront = .ok io' ∧
    io'.closeState = io.closeState ∧ Queued max io' (P.drop n) := by
  obtain ⟨q,hpop,hq⟩ := (hholds.set { b with offset := b.offset + n }).popFront
  have hnil : P ≠ [] := by
    rw [hP,List.flatMap_cons]
    exact List.append_ne_nil_of_left_ne_nil (hne b List.mem_cons_self) _
  have hnext : P.drop n = bufs.flatMap OffsetBuf.remaining := by
    rw [(split_front hP hn).2,hall,List.drop_length,List.nil_append]
  refine ⟨{ io.advance io.writeQueue.offset b n with writeQueue := q },?_,rfl,h.limit,h.opened,
    ⟨bufs,hq,fun b' hb' => hne b' (List.mem_cons_of_mem b hb'),hnext⟩,h.size_advance hP hn io.writeQueue.offset,
    h.drop_bound n,fun _ => h.watches hnil⟩
  rw [WriteIo.popFront,WriteIo.advance]
  simp only [hpop,Option.elim_some]

end Front

/-! ### `nio_write` -/

/-- What `nio_write` does with the pending bytes `P`: it sends `bytes` and leaves `P'`. When the socket
takes what it is given, the connection is closed only because it was to be, and with nothing left. -/
structure Wrote (max : UInt32) (io : WriteIo) (sends : List Send) (P : Bytes) (io' : WriteIo) (bytes P' : Bytes) :
    Prop where
  split : P = bytes ++ P'
  left : Left max io' P'
  calm : (∀ send ∈ sends, send.Alive) → io'.closed = true ∧ io.close = true ∧ P' = [] ∨
    Writes max io' P' ∧ io'.closeState = io.closeState
  progress : (sends.headD .again).Positive → P ≠ [] → bytes ≠ []

theorem mem_of_headD {sends : List Send} {send : Send} (h : sends.headD .again = send) (hne : send ≠ .again) :
    send ∈ sends := by
  cases sends with
  | nil => exact absurd h.symm hne
  | cons s sends => exact h ▸ List.mem_cons_self

theorem Queued.nioWrite (h : Queued max io P) (hfuel : P.length < fuel) (sends : List Send) :
    ∃ io' bytes P', io.nioWrite fuel sends = .ok (io',bytes) ∧ Wrote max io sends P io' bytes P' := by
  induction fuel generalizing io P sends with
  | zero => exact absurd hfuel (Nat.not_lt_zero _)
  | succ fuel ih =>
    obtain ⟨bufs,hholds,hne,hP⟩ := h.queue
    cases bufs with
    | nil =>
      obtain rfl : P = [] := hP
      by_cases hclose : io.close = true
      · have hsize : io.writeQueue.size = 0 := hholds.size
        have hclosed : ({ io with close := false } : WriteIo).hioClose.closed = true := by
          simp [WriteIo.hioClose,h.opened,hsize]
        refine ⟨_,[],[],by rw [WriteIo.nioWrite,hholds.front_nil]; simp only [hclose,↓reduceIte],rfl,Or.inl hclosed,
          fun _ => Or.inl ⟨hclosed,hclose,rfl⟩,fun _ hnil => absurd rfl hnil⟩
      · have hwrites : Writes max io [] := ⟨h,fun hc => absurd hc hclose⟩
        exact ⟨io,[],[],by rw [WriteIo.nioWrite,hholds.front_nil]; simp only [hclose]; rfl,rfl,Or.inr hwrites,
          fun _ => Or.inr ⟨hwrites,rfl⟩,fun _ hnil => absurd rfl hnil⟩
    | cons b bufs =>
      obtain ⟨hfront,hget⟩ := hholds.front_cons
      have hb : b.remaining ≠ [] := hne b List.mem_cons_self
      have hlen : b.base.length - b.offset = b.remaining.length := (List.length_drop).symm
      have hpos := List.length_pos_of_ne_nil hb
      have hnil : P ≠ [] := by
        rw [hP,List.flatMap_cons]
        exact List.append_ne_nil_of_left_ne_nil hb _
      have hwrites : Writes max io P := ⟨h,fun _ => hnil⟩
      unfold WriteIo.nioWrite
      simp only [hfront,hget,checked_some,ok_bind,hlen]
      cases hsend : sends.headD .again with
      | again =>
        exact ⟨io,[],P,rfl,rfl,Or.inr hwrites,fun _ => Or.inr ⟨hwrites,rfl⟩,
          fun ⟨_,hp⟩ => Send.noConfusion (hsend.symm.trans hp)⟩
      | failed err =>
        refine ⟨_,[],P,rfl,rfl,(hwrites.withError err).toQueued.hioClose,fun hall => ?_,
          fun ⟨_,hp⟩ => Send.noConfusion (hsend.symm.trans hp)⟩
        rcases hall _ (mem_of_headD hsend Send.noConfusion) with hp | ⟨_,hp⟩ <;> exact Send.noConfusion hp
      | wrote count =>
        have hcalm : (∀ send ∈ sends, send.Alive) → 0 < count := by
          intro hall
          rcases hall _ (mem_of_headD hsend Send.noConfusion) with hp | ⟨c,hp⟩
          · exact Send.noConfusion hp
          · exact Send.wrote.inj hp ▸ c.succ_pos
        have hle := Nat.min_le_right count b.remaining.length
        have hmin : 0 < count → min count b.remaining.length ≠ 0 := by omega
        dsimp only
        generalize min count b.remaining.length = n at hle hmin ⊢
        by_cases hzero : n = 0
        · refine ⟨_,[],P,by rw [if_pos hzero]; rfl,rfl,h.hioClose,fun hall => absurd hzero (hmin (hcalm hall)),?_⟩
          rintro ⟨c,hp⟩
          obtain rfl := Send.wrote.inj (hsend.symm.trans hp)
          exact absurd hzero (hmin c.succ_pos)
        have hsplit := (split_front hP hle).1
        have htaken : b.remaining.take n ≠ [] := by
          rw [Ne,List.take_eq_nil_iff]
          exact not_or.mpr ⟨hzero,hb⟩
        by_cases hall : n = b.remaining.length
        · obtain ⟨io₁,hpop,hstate,h₁⟩ := h.popFront hholds hne hP hle hall
          have hshort : (P.drop n).length < fuel := by
            have := List.length_pos_of_ne_nil hnil
            rw [List.length_drop]
            omega
          obtain ⟨io',bytes,P',hrun,hwrote⟩ := ih h₁ hshort sends.tail
          refine ⟨io',b.remaining.take n ++ bytes,P',?_,?_,hwrote.left,fun halive => ?_,fun _ _ => ?_⟩
          · rw [if_neg hzero,if_pos hall,hpop,ok_bind,hrun]
            rfl
          · rw [List.append_assoc,← hwrote.split]
            exact hsplit
          · rw [← hstate,← show io₁.close = io.close from congrArg Prod.fst hstate]
            exact hwrote.calm fun send hsend => halive send (List.mem_of_mem_tail hsend)
          · exact List.append_ne_nil_of_left_ne_nil htaken _
        · have hkept := h.advance hholds hne hP hle (by omega)
          exact ⟨_,b.remaining.take n,P.drop n,by rw [if_neg hzero,if_neg hall]; rfl,hsplit,Or.inr hkept,
            fun _ => Or.inr ⟨hkept,rfl⟩,fun _ _ => htaken⟩

/-! ### Runs -/

theorem Left.hioClose (h : Left max io P) : Left max io.hioClose P := by
  rcases h with hclosed | hwrites
  · exact Or.inl (by rwa [WriteIo.hioClose,if_pos hclosed])
  · exact hwrites.toQueued.hioClose

/-- What an event took responsibility for. -/
def acceptedBy : WriteEvent → Sent → Bytes
  | .write buf _, sent => accepted buf (sent.ret.getD (-1)) sent.bytes
  | _, _ => []

theorem Left.withFields (h : Left max io P) (closeTimer : Bool) (closing error : ℕ) :
    Left max { io with closeTimer := closeTimer, closing := closing, error := error } P :=
  h.imp id fun h => ⟨⟨h.limit,h.opened,h.queue,h.size,h.bound,h.watches⟩,h.lingers⟩

/-- Bytes move from the calls to the queue and from the queue to the socket, until the connection is closed. -/
theorem Left.step (h : Left max io P) (hfuel : UInt32.size ≤ fuel) (e : WriteEvent) : ∃ io' sent P',
    io.step fuel e = .ok (io',sent) ∧ Left max io' P' ∧ P ++ acceptedBy e sent = sent.bytes ++ P' := by
  cases e with
  | write buf send =>
    rcases h with hclosed | hwrites
    · have hrun : io.hioWrite buf send = .ok (io,-1,[]) := by
        unfold WriteIo.hioWrite
        rw [if_pos hclosed]
      exact ⟨io,{ ret := some (-1) },P,by rw [WriteIo.step,hrun]; rfl,Or.inl hclosed,List.append_nil P⟩
    · obtain ⟨io',ret,bytes,P',hrun,hwrites',hsplit,-⟩ := hwrites.hioWrite buf send
      exact ⟨io',{ ret := some ret, bytes },P',by rw [WriteIo.step,hrun]; rfl,Or.inr hwrites',hsplit⟩
  | delWrite =>
    refine ⟨_,{},P,rfl,?_,List.append_nil P⟩
    split
    · next hempty =>
      refine h.imp id fun hwrites => ?_
      obtain rfl := hwrites.empty_iff.mp hempty
      exact ⟨⟨hwrites.limit,hwrites.opened,hwrites.queue,hwrites.size,hwrites.bound,fun hnil => absurd rfl hnil⟩,
        hwrites.lingers⟩
    · exact h
  | writable sends =>
    rcases h with hclosed | hwrites
    · exact ⟨io,{},P,by rw [WriteIo.step,if_pos hclosed],Or.inl hclosed,List.append_nil P⟩
    · have hshort : P.length < fuel :=
        (hwrites.bound.trans_lt max.toNat_lt).trans_le hfuel
      obtain ⟨io',bytes,P',hrun,hwrote⟩ := hwrites.toQueued.nioWrite hshort sends
      have hopen : ¬ io.closed = true := by simp [hwrites.opened]
      refine ⟨io',{ bytes },P',by rw [WriteIo.step,if_neg hopen,hrun]; rfl,hwrote.left,?_⟩
      exact (List.append_nil P).trans hwrote.split
  | close inLoop =>
    refine ⟨_,{},P,rfl,?_,List.append_nil P⟩
    split
    · exact h.hioClose
    · exact h.withFields io.closeTimer (io.closing + 1) io.error
  | closeEvent =>
    refine ⟨_,{},P,rfl,?_,List.append_nil P⟩
    split
    · exact h
    · exact (h.withFields io.closeTimer (io.closing - 1) io.error).hioClose
  | closeTimeout =>
    refine ⟨_,{},P,rfl,?_,List.append_nil P⟩
    split
    · exact (h.withFields false io.closing etimedout).hioClose
    · exact h

def sentBytes (log : List (WriteEvent × Sent)) : Bytes := log.flatMap fun x => x.2.bytes

def acceptedBytes (log : List (WriteEvent × Sent)) : Bytes := log.flatMap fun x => acceptedBy x.1 x.2

theorem Left.run (h : Left max io P) (hfuel : UInt32.size ≤ fuel) (es : List WriteEvent) : ∃ io' log P',
    io.run fuel es = .ok (io',log) ∧ log.map Prod.fst = es ∧ Left max io' P' ∧
      P ++ acceptedBytes log = sentBytes log ++ P' := by
  induction es generalizing io P with
  | nil => exact ⟨io,[],P,rfl,rfl,h,List.append_nil P⟩
  | cons e es ih =>
    obtain ⟨io₁,sent,P₁,hstep,h₁,hsplit⟩ := h.step hfuel e
    obtain ⟨io₂,log,P₂,hrun,hlog,h₂,hsplit'⟩ := ih h₁
    refine ⟨io₂,(e,sent) :: log,P₂,?_,by rw [List.map_cons,hlog],h₂,?_⟩
    · simp only [WriteIo.run,hstep,ok_bind,hrun]
      rfl
    · simp only [acceptedBytes,sentBytes,List.flatMap_cons] at hsplit' ⊢
      rw [← List.append_assoc,hsplit,List.append_assoc,hsplit',List.append_assoc]

theorem WriteIo.run_append {es es' : List WriteEvent} {io₁ io₂ : WriteIo} {log log' : List (WriteEvent × Sent)}
    (h : io.run fuel es = .ok (io₁,log)) (h' : io₁.run fuel es' = .ok (io₂,log')) :
    io.run fuel (es ++ es') = .ok (io₂,log ++ log') := by
  induction es generalizing io log with
  | nil =>
    obtain ⟨rfl,rfl⟩ := Prod.mk.inj (Except.ok.inj h)
    exact h'
  | cons e es ih =>
    simp only [run] at h
    obtain ⟨⟨io₃,sent⟩,hstep,h⟩ := bind_eq_ok.mp h
    obtain ⟨⟨io₄,rest⟩,hrun,h⟩ := bind_eq_ok.mp h
    obtain ⟨rfl,rfl⟩ := Prod.mk.inj (Except.ok.inj h)
    simp only [List.cons_append,run,hstep,ok_bind,ih hrun]
    rfl

/-- What the calls of `hio_write` were given. -/
def written (es : List WriteEvent) : Bytes := es.flatMap fun
  | .write buf _ => buf
  | _ => []

/-- The buffers of the calls of `hio_write`. -/
def buffersWritten (es : List WriteEvent) : List Bytes := es.filterMap fun
  | .write buf _ => some buf
  | _ => none

theorem written_eq_flatten (es : List WriteEvent) : written es = (buffersWritten es).flatten := by
  induction es with
  | nil => rfl
  | cons e es ih =>
    simp only [written,buffersWritten,List.flatMap_cons] at ih ⊢
    rw [ih]
    cases e <;> simp

/-- A write with a result that is not negative. -/
def Succeeded : WriteEvent × Sent → Prop
  | (.write _ _,sent) => 0 ≤ sent.ret.getD (-1)
  | _ => True

theorem acceptedBytes_eq_written {log : List (WriteEvent × Sent)} (h : ∀ x ∈ log, Succeeded x) :
    acceptedBytes log = written (log.map Prod.fst) := by
  rw [written,List.flatMap_map]
  refine List.flatMap_congr fun x hx => ?_
  obtain ⟨e,sent⟩ := x
  cases e with
  | write buf send => exact if_pos (h _ hx)
  | _ => rfl

theorem writes_new (max : UInt32) : Writes max { maxWriteBufsize := max } [] :=
  ⟨⟨rfl,rfl,⟨[],Queue.holds_cleanup,fun _ hb => absurd hb List.not_mem_nil,rfl⟩,rfl,Nat.zero_le _,
    fun hnil => absurd rfl hnil⟩,fun hclose => Bool.noConfusion hclose⟩

theorem run_new (max : UInt32) (hfuel : UInt32.size ≤ fuel) (es : List WriteEvent) : ∃ io log P,
    ({ maxWriteBufsize := max } : WriteIo).run fuel es = .ok (io,log) ∧ log.map Prod.fst = es ∧ Left max io P ∧
      acceptedBytes log = sentBytes log ++ P :=
  Left.run (Or.inr (writes_new max)) hfuel es

/-- Every run of a new connection: what the socket took is a prefix of what was accepted, and while the
connection is open the rest is queued. When no write fails, everything written is accepted. -/
theorem writes_in_order (max : UInt32) (fuel : ℕ) (hfuel : UInt32.size ≤ fuel) (es : List WriteEvent) :
    ∃ io log, ({ maxWriteBufsize := max } : WriteIo).run fuel es = .ok (io,log) ∧ log.map Prod.fst = es ∧
      sentBytes log <+: acceptedBytes log ∧
      (io.closed = false → ∃ P, acceptedBytes log = sentBytes log ++ P ∧ Writes max io P) ∧
      ((∀ x ∈ log, Succeeded x) → acceptedBytes log = written es) := by
  obtain ⟨io,log,P,hrun,hlog,hleft,hsplit⟩ := run_new max hfuel es
  refine ⟨io,log,hrun,hlog,hsplit ▸ List.prefix_append _ _,fun hopen => ⟨P,hsplit,?_⟩,fun hall => ?_⟩
  · exact hleft.resolve_left (by simp [hopen])
  · rw [acceptedBytes_eq_written hall,hlog]

/-- Three writes: the socket takes a part of the first and comes back for the rest. -/
theorem writes_in_order_three : ∃ io log, ({ maxWriteBufsize := 4 } : WriteIo).run UInt32.size
    [.write [1,2,3] (.wrote 1),.write [4] .again,.writable [.wrote 1],.write [5] .again,.writable [.wrote 9,.again]] =
      .ok (io,log) ∧
    log.map Prod.fst =
      [.write [1,2,3] (.wrote 1),.write [4] .again,.writable [.wrote 1],.write [5] .again,.writable [.wrote 9,.again]] ∧
    sentBytes log <+: acceptedBytes log ∧
    (io.closed = false → ∃ P, acceptedBytes log = sentBytes log ++ P ∧ Writes 4 io P) ∧
    ((∀ x ∈ log, Succeeded x) → acceptedBytes log = written
      [.write [1,2,3] (.wrote 1),.write [4] .again,.writable [.wrote 1],.write [5] .again,.writable [.wrote 9,.again]]) :=
  writes_in_order 4 UInt32.size le_rfl _

/-! ### Draining -/

theorem run_writable_closed (hclosed : io.closed = true) (ess : List (List Send)) : ∃ log,
    io.run fuel (ess.map .writable) = .ok (io,log) ∧ sentBytes log = [] := by
  induction ess with
  | nil => exact ⟨[],rfl,rfl⟩
  | cons sends ess ih =>
    obtain ⟨log,hrun,hsent⟩ := ih
    refine ⟨(.writable sends,{}) :: log,?_,hsent⟩
    simp only [List.map_cons,WriteIo.run,WriteIo.step,hclosed,↓reduceIte,ok_bind,hrun]
    rfl

/-- A socket that goes on taking bytes gets all that is queued; then the connection is closed if it was to be. -/
theorem Writes.drain (h : Writes max io P) (hfuel : UInt32.size ≤ fuel) {ess : List (List Send)}
    (hpos : ∀ sends ∈ ess, sends ≠ [] ∧ ∀ send ∈ sends, send.Positive) (hlen : P.length ≤ ess.length) : ∃ io' log,
    io.run fuel (ess.map .writable) = .ok (io',log) ∧ sentBytes log = P ∧ io'.closed = io.close := by
  induction ess generalizing io P with
  | nil =>
    obtain rfl := List.length_eq_zero_iff.mp (Nat.le_zero.mp hlen)
    have hclose : ¬ io.close = true := fun hclose => h.lingers hclose rfl
    exact ⟨io,[],rfl,rfl,by simp [h.opened,hclose]⟩
  | cons sends ess ih =>
    have hshort : P.length < fuel := (h.bound.trans_lt max.toNat_lt).trans_le hfuel
    obtain ⟨io₁,bytes,P₁,hwrite,hwrote⟩ := h.toQueued.nioWrite hshort sends
    obtain ⟨hne,hall⟩ := hpos sends List.mem_cons_self
    have hstep : io.step fuel (.writable sends) = .ok (io₁,{ bytes }) := by
      rw [WriteIo.step,if_neg (by simp [h.opened]),hwrite]
      rfl
    obtain ⟨rest,hrest,io₂,log,hrun,hsent,hclosed⟩ : ∃ rest, P = bytes ++ rest ∧ ∃ io₂ log,
        io₁.run fuel (ess.map .writable) = .ok (io₂,log) ∧ sentBytes log = rest ∧ io₂.closed = io.close := by
      refine ⟨P₁,hwrote.split,?_⟩
      rcases hwrote.calm fun send hsend => Or.inr (hall send hsend) with ⟨hclosed,hclose,rfl⟩ | ⟨h₁,hstate⟩
      · obtain ⟨log,hrun,hsent⟩ := run_writable_closed hclosed ess
        exact ⟨io₁,log,hrun,hsent,by rw [hclosed,hclose]⟩
      · rw [← show io₁.close = io.close from congrArg Prod.fst hstate]
        refine ih h₁ (fun sends' hsends' => hpos sends' (List.mem_cons_of_mem sends hsends')) ?_
        have hsplit := congrArg List.length hwrote.split
        rw [List.length_append] at hsplit
        rw [List.length_cons] at hlen
        by_cases hnil : P = []
        · rw [hnil,List.length_nil] at hsplit
          omega
        · have hhead : (sends.headD .again).Positive := by
            cases sends with
            | nil => exact absurd rfl hne
            | cons send sends => exact hall send List.mem_cons_self
          have := List.length_pos_of_ne_nil (hwrote.progress hhead hnil)
          omega
    refine ⟨io₂,(.writable sends,{ bytes }) :: log,?_,?_,hclosed⟩
    · simp only [List.map_cons,WriteIo.run,hstep,ok_bind,hrun]
      rfl
    · rw [hrest,← hsent]
      rfl

/-! `hio_close` in the thread of the loop: a first close of a connection without error waits for the queue. -/

theorem Writes.hioClose_waits (h : Writes max io P) (herror : io.error = 0) (hclose : io.close = false) :
    P = [] ∧ io.hioClose.closed = true ∨ Writes max io.hioClose P ∧ io.hioClose.close = true := by
  have hopen : ¬ io.closed = true := by simp [h.opened]
  by_cases hempty : io.writeQueue.size = 0
  · refine Or.inl ⟨h.empty_iff.mp hempty,?_⟩
    rw [WriteIo.hioClose,if_neg hopen,if_neg fun hwait => hwait.1 hempty]
  · right
    rw [WriteIo.hioClose,if_neg hopen,if_pos ⟨hempty,herror,by simp [hclose]⟩]
    exact ⟨⟨⟨h.limit,h.opened,h.queue,h.size,h.bound,h.watches⟩,fun _ hnil => hempty (h.empty_iff.mpr hnil)⟩,rfl⟩

theorem WriteIo.hioClose_drops (h : io.error ≠ 0 ∨ io.close = true) : io.hioClose.closed = true := by
  unfold WriteIo.hioClose
  split
  · assumption
  · rw [if_neg fun hwait => h.elim (fun herror => herror hwait.2.1) hwait.2.2]

/-- Closed by the loop now, a connection sends what is queued when nothing is, or when it is the first close
and there was no error. Otherwise the queue is dropped. -/
theorem Writes.close_drain (h : Writes max io P) (hfuel : UInt32.size ≤ fuel) {ess : List (List Send)}
    (hpos : ∀ sends ∈ ess, sends ≠ [] ∧ ∀ send ∈ sends, send.Positive) (hlen : P.length ≤ ess.length) : ∃ io' log,
    io.run fuel (.close true :: ess.map .writable) = .ok (io',log) ∧ io'.closed = true ∧
      (sentBytes log = P ↔ P = [] ∨ io.error = 0 ∧ io.close = false) := by
  have hstep : io.step fuel (.close true) = .ok (io.hioClose,{}) := rfl
  have hafter : ∀ {io' log}, io.hioClose.run fuel (ess.map .writable) = .ok (io',log) →
      io.run fuel (.close true :: ess.map .writable) = .ok (io',(.close true,{}) :: log) := by
    intro io' log hrun
    simp only [WriteIo.run,hstep,ok_bind,hrun]
    rfl
  by_cases hfirst : io.error = 0 ∧ io.close = false
  · rcases h.hioClose_waits hfirst.1 hfirst.2 with ⟨rfl,hclosed⟩ | ⟨hwrites,hmarked⟩
    · obtain ⟨log,hrun,hsent⟩ := run_writable_closed hclosed ess
      exact ⟨_,_,hafter hrun,hclosed,iff_of_true hsent (Or.inl rfl)⟩
    · obtain ⟨io',log,hrun,hsent,hclosed⟩ := hwrites.drain hfuel hpos hlen
      exact ⟨io',_,hafter hrun,hclosed.trans hmarked,iff_of_true hsent (Or.inr hfirst)⟩
  · have hclosed : io.hioClose.closed = true := WriteIo.hioClose_drops (by
      rcases not_and_or.mp hfirst with herror | hclose
      · exact Or.inl herror
      · exact Or.inr (Bool.eq_true_of_not_eq_false hclose))
    obtain ⟨log,hrun,hsent⟩ := run_writable_closed hclosed ess
    have hnothing : sentBytes ((.close true,{}) :: log) = [] := hsent
    refine ⟨_,_,hafter hrun,hclosed,?_⟩
    rw [hnothing]
    exact ⟨fun hnil => Or.inl hnil.symm,fun hcond => (hcond.resolve_right hfirst).symm⟩

/-! The mark that `hio_close` leaves on a connection it does not close stays until the connection is closed. -/

def Marked (io : WriteIo) : Prop := io.closed = true ∨ io.close = true

namespace WriteIo

theorem marked_hioClose (io : WriteIo) : Marked io.hioClose := by
  unfold hioClose
  split
  · next hclosed => exact Or.inl hclosed
  · split
    · exact Or.inr rfl
    · exact Or.inl rfl

theorem enqueue_marked {io' : WriteIo} {n : ℕ} {ret : ℤ} (h : io.enqueue buf n = .ok (io',ret)) (hm : Marked io) :
    Marked io' := by
  unfold enqueue at h
  split at h
  · split at h
    · obtain ⟨rfl,-⟩ := Prod.mk.inj (Except.ok.inj h)
      exact hm
    · obtain ⟨queue,-,h⟩ := bind_eq_ok.mp h
      obtain ⟨rfl,-⟩ := Prod.mk.inj (Except.ok.inj h)
      exact hm
  · obtain ⟨rfl,-⟩ := Prod.mk.inj (Except.ok.inj h)
    exact hm

theorem hioWrite_marked {io' : WriteIo} {send : Send} {ret : ℤ} {bytes : Bytes}
    (h : io.hioWrite buf send = .ok (io',ret,bytes)) (hm : Marked io) : Marked io' := by
  unfold hioWrite at h
  split at h
  · obtain ⟨rfl,-⟩ := Prod.mk.inj (Except.ok.inj h)
    exact hm
  split at h
  · cases send with
    | again =>
      obtain ⟨⟨io₁,r⟩,henq,h⟩ := bind_eq_ok.mp h
      obtain ⟨rfl,-⟩ := Prod.mk.inj (Except.ok.inj h)
      exact enqueue_marked henq hm
    | failed err =>
      obtain ⟨rfl,-⟩ := Prod.mk.inj (Except.ok.inj h)
      exact hm
    | wrote count =>
      dsimp only at h
      split at h
      · obtain ⟨rfl,-⟩ := Prod.mk.inj (Except.ok.inj h)
        exact hm
      split at h
      · obtain ⟨rfl,-⟩ := Prod.mk.inj (Except.ok.inj h)
        exact hm
      · obtain ⟨⟨io₁,r⟩,henq,h⟩ := bind_eq_ok.mp h
        obtain ⟨rfl,-⟩ := Prod.mk.inj (Except.ok.inj h)
        exact enqueue_marked henq hm
  · obtain ⟨⟨io₁,r⟩,henq,h⟩ := bind_eq_ok.mp h
    obtain ⟨rfl,-⟩ := Prod.mk.inj (Except.ok.inj h)
    exact enqueue_marked henq hm

theorem nioWrite_marked {io' : WriteIo} {sends : List Send} {bytes : Bytes}
    (h : io.nioWrite fuel sends = .ok (io',bytes)) (hm : Marked io) : Marked io' := by
  induction fuel generalizing io sends bytes with
  | zero => cases h
  | succ fuel ih =>
    unfold nioWrite at h
    split at h
    · obtain ⟨rfl,-⟩ := Prod.mk.inj (Except.ok.inj h)
      split
      · exact marked_hioClose _
      · exact hm
    · obtain ⟨b,-,h⟩ := bind_eq_ok.mp h
      dsimp only at h
      split at h
      · obtain ⟨rfl,-⟩ := Prod.mk.inj (Except.ok.inj h)
        exact hm
      · obtain ⟨rfl,-⟩ := Prod.mk.inj (Except.ok.inj h)
        exact marked_hioClose _
      · split at h
        · obtain ⟨rfl,-⟩ := Prod.mk.inj (Except.ok.inj h)
          exact marked_hioClose _
        split at h
        · obtain ⟨io₁,hpop,h⟩ := bind_eq_ok.mp h
          obtain ⟨⟨io₂,rest⟩,hrest,h⟩ := bind_eq_ok.mp h
          obtain ⟨rfl,-⟩ := Prod.mk.inj (Except.ok.inj h)
          refine ih hrest ?_
          unfold popFront at hpop
          cases hq : (io.advance _ _ _).writeQueue.popFront with
          | none =>
            rw [hq] at hpop
            cases hpop
          | some q =>
            rw [hq] at hpop
            rw [← Except.ok.inj hpop]
            exact hm
        · obtain ⟨rfl,-⟩ := Prod.mk.inj (Except.ok.inj h)
          exact hm

theorem step_marked {io' : WriteIo} {e : WriteEvent} {sent : Sent} (h : io.step fuel e = .ok (io',sent))
    (hm : Marked io ∨ e = .close true) : Marked io' := by
  cases e with
  | close inLoop =>
    obtain ⟨rfl,-⟩ := Prod.mk.inj (Except.ok.inj h)
    split
    · exact marked_hioClose io
    · next hother =>
      refine hm.resolve_right fun heq => hother (Or.inl ?_)
      exact WriteEvent.close.inj heq
  | write buf send =>
    obtain ⟨⟨io₁,ret,bytes⟩,hwrite,h⟩ := bind_eq_ok.mp h
    obtain ⟨rfl,-⟩ := Prod.mk.inj (Except.ok.inj h)
    exact hioWrite_marked hwrite (hm.resolve_right WriteEvent.noConfusion)
  | delWrite =>
    obtain ⟨rfl,-⟩ := Prod.mk.inj (Except.ok.inj h)
    split
    all_goals exact hm.resolve_right WriteEvent.noConfusion
  | writable sends =>
    have hm := hm.resolve_right WriteEvent.noConfusion
    rw [step] at h
    split at h
    · obtain ⟨rfl,-⟩ := Prod.mk.inj (Except.ok.inj h)
      exact hm
    · obtain ⟨⟨io₁,bytes⟩,hwrite,h⟩ := bind_eq_ok.mp h
      obtain ⟨rfl,-⟩ := Prod.mk.inj (Except.ok.inj h)
      exact nioWrite_marked hwrite hm
  | closeEvent =>
    obtain ⟨rfl,-⟩ := Prod.mk.inj (Except.ok.inj h)
    split
    · exact hm.resolve_right WriteEvent.noConfusion
    · exact marked_hioClose _
  | closeTimeout =>
    obtain ⟨rfl,-⟩ := Prod.mk.inj (Except.ok.inj h)
    split
    · exact marked_hioClose _
    · exact hm.resolve_right WriteEvent.noConfusion

theorem run_marked {es : List WriteEvent} {io' : WriteIo} {log : List (WriteEvent × Sent)}
    (h : io.run fuel es = .ok (io',log)) (hm : Marked io ∨ .close true ∈ es) : Marked io' := by
  induction es generalizing io log with
  | nil =>
    obtain ⟨rfl,-⟩ := Prod.mk.inj (Except.ok.inj h)
    exact hm.resolve_right List.not_mem_nil
  | cons e es ih =>
    obtain ⟨⟨io₁,sent⟩,hstep,h⟩ := bind_eq_ok.mp h
    obtain ⟨⟨io₂,log₂⟩,hrun,h⟩ := bind_eq_ok.mp h
    obtain ⟨rfl,-⟩ := Prod.mk.inj (Except.ok.inj h)
    refine ih hrun ?_
    rcases hm with hm | hmem
    · exact Or.inl (step_marked hstep (Or.inl hm))
    · rcases List.mem_cons.mp hmem with rfl | hmem
      · exact Or.inl (step_marked hstep (Or.inr rfl))
      · exact Or.inr hmem

end WriteIo

/-- After a run that leaves the connection open, a socket that takes bytes gets all that was accepted. The
connection is then closed when it is marked, and a close of the loop does mark it. A close of the loop now
drops the queue when it is not the first one or comes after an error, and nothing otherwise. -/
theorem writes_drain (max : UInt32) (fuel : ℕ) (hfuel : UInt32.size ≤ fuel) (es : List WriteEvent) :
    ∃ io log, ({ maxWriteBufsize := max } : WriteIo).run fuel es = .ok (io,log) ∧ (io.closed = false →
      (.close true ∈ es → io.close = true) ∧
      ∀ ess : List (List Send), (∀ sends ∈ ess, sends ≠ [] ∧ ∀ send ∈ sends, send.Positive) →
        io.writeBufsize.toNat ≤ ess.length →
        (∃ io' log', io.run fuel (ess.map .writable) = .ok (io',log') ∧
          sentBytes log ++ sentBytes log' = acceptedBytes log ∧ io'.closed = io.close) ∧
        ∃ io' log', io.run fuel (.close true :: ess.map .writable) = .ok (io',log') ∧ io'.closed = true ∧
          (sentBytes log ++ sentBytes log' = acceptedBytes log ↔
            io.writeBufsize = 0 ∨ io.error = 0 ∧ io.close = false)) := by
  obtain ⟨io,log,P,hrun,-,hleft,hsplit⟩ := run_new max hfuel es
  refine ⟨io,log,hrun,fun hopen => ?_⟩
  have hnot : ¬ io.closed = true := by simp [hopen]
  have hwrites := hleft.resolve_left hnot
  refine ⟨fun hmem => (WriteIo.run_marked hrun (Or.inr hmem)).resolve_left hnot,fun ess hpos hlen => ?_⟩
  rw [hwrites.size] at hlen
  constructor
  · obtain ⟨io',log',hdrain,hsent,hclosed⟩ := hwrites.drain hfuel hpos hlen
    exact ⟨io',log',hdrain,by rw [hsent,hsplit],hclosed⟩
  · obtain ⟨io',log',hdrain,hclosed,hsent⟩ := hwrites.close_drain hfuel hpos hlen
    refine ⟨io',log',hdrain,hclosed,?_⟩
    have hzero : io.writeBufsize = 0 ↔ P = [] := by
      rw [← UInt32.toNat_inj,hwrites.size]
      exact List.length_eq_zero_iff
    rw [hsplit,List.append_cancel_left_eq,hsent,hzero]

/-- Closed by the loop while three bytes wait: they are sent first. -/
theorem writes_drain_closing : ∃ io log, ({ maxWriteBufsize := 4 } : WriteIo).run UInt32.size
    [.write [1,2,3] (.wrote 1),.write [4] .again,.close true] = .ok (io,log) ∧ io.closed = false ∧ io.close = true ∧
      ∃ io' log', io.run UInt32.size ([[.wrote 1],[.wrote 9,.wrote 1],[.wrote 9]].map .writable) = .ok (io',log') ∧
        sentBytes log ++ sentBytes log' = [1,2,3,4] ∧ io'.closed = true := by
  let es : List WriteEvent := [.write [1,2,3] (.wrote 1),.write [4] .again,.close true]
  obtain ⟨io,log,hrun,h⟩ := writes_drain 4 UInt32.size le_rfl es
  have hstate : (({ maxWriteBufsize := 4 } : WriteIo).run UInt32.size es).map (fun r =>
      (r.1.closed,r.1.writeBufsize,acceptedBytes r.2)) = .ok (false,3,[1,2,3,4]) := by rfl
  rw [hrun] at hstate
  obtain ⟨hopen,hstate⟩ := Prod.mk.inj (Except.ok.inj hstate)
  obtain ⟨hsize,hbytes⟩ := Prod.mk.inj hstate
  obtain ⟨hmark,hdrain⟩ := h hopen
  have hclose : io.close = true := hmark (by simp [es])
  obtain ⟨⟨io',log',hrun',hsent,hclosed⟩,-⟩ := hdrain [[.wrote 1],[.wrote 9,.wrote 1],[.wrote 9]]
    (by simp [Send.Positive]) (by rw [hsize]; decide)
  exact ⟨io,log,hrun,hopen,hclose,io',log',hrun',hsent.trans hbytes,hclosed.trans hclose⟩

/-! ### A socket that is fine -/

/-- Nobody closes the connection and no call of `send` fails. -/
def WriteEvent.Calm : WriteEvent → Prop
  | .write buf send => buf ≠ [] ∧ send.Alive
  | .writable sends => ∀ send ∈ sends, send.Alive
  | .close _ => False
  | _ => True

theorem Writes.step_calm (h : Writes max io P) (hstate : io.closeState = (false,0,false))
    (hfuel : UInt32.size ≤ fuel) {e : WriteEvent} (he : e.Calm) (hfits : P.length + (written [e]).length ≤ max.toNat) :
    ∃ io' sent P', io.step fuel e = .ok (io',sent) ∧ Writes max io' P' ∧ io'.closeState = (false,0,false) ∧
      P ++ written [e] = sent.bytes ++ P' := by
  have hopen : ¬ io.closed = true := by simp [h.opened]
  obtain ⟨hclose,hclosing,htimer⟩ := Prod.mk.inj hstate |>.imp id Prod.mk.inj
  cases e with
  | write buf send =>
    obtain ⟨io',ret,bytes,P',hrun,hwrites,hsplit,hsuccess⟩ := h.hioWrite buf send
    have hwritten : written [.write buf send] = buf := List.append_nil buf
    rw [hwritten] at hfits ⊢
    obtain ⟨hret,hstate'⟩ := hsuccess he.1 he.2 hfits
    rw [accepted,if_pos hret] at hsplit
    exact ⟨io',{ ret := some ret, bytes },P',by rw [WriteIo.step,hrun]; rfl,hwrites,hstate'.trans hstate,hsplit⟩
  | delWrite =>
    refine ⟨_,{},P,rfl,?_,?_,List.append_nil P⟩ <;> split
    · next hempty =>
      obtain rfl := h.empty_iff.mp hempty
      exact ⟨⟨h.limit,h.opened,h.queue,h.size,h.bound,fun hnil => absurd rfl hnil⟩,h.lingers⟩
    · exact h
    · exact hstate
    · exact hstate
  | writable sends =>
    have hshort : P.length < fuel := (h.bound.trans_lt max.toNat_lt).trans_le hfuel
    obtain ⟨io',bytes,P',hrun,hwrote⟩ := h.toQueued.nioWrite hshort sends
    have hcalm := (hwrote.calm he).resolve_left fun hclosed => by simp [hclose] at hclosed
    exact ⟨io',{ bytes },P',by rw [WriteIo.step,if_neg hopen,hrun]; rfl,hcalm.1,hcalm.2.trans hstate,
      (List.append_nil P).trans hwrote.split⟩
  | close inLoop => exact absurd he id
  | closeEvent => exact ⟨io,{},P,by rw [WriteIo.step,if_pos hclosing],h,hstate,List.append_nil P⟩
  | closeTimeout => exact ⟨io,{},P,by rw [WriteIo.step,if_neg (by simp [htimer])],h,hstate,List.append_nil P⟩

/-- No write fails while all that is written fits into the queue. -/
theorem Writes.run_calm (h : Writes max io P) (hstate : io.closeState = (false,0,false)) (hfuel : UInt32.size ≤ fuel)
    {es : List WriteEvent} (hes : ∀ e ∈ es, e.Calm) (hfits : P.length + (written es).length ≤ max.toNat) :
    ∃ io' log P', io.run fuel es = .ok (io',log) ∧ Writes max io' P' ∧ io'.closeState = (false,0,false) ∧
      P ++ written es = sentBytes log ++ P' := by
  induction es generalizing io P with
  | nil => exact ⟨io,[],P,rfl,h,hstate,List.append_nil P⟩
  | cons e es ih =>
    have hcons : written (e :: es) = written [e] ++ written es := by
      simp only [written,List.flatMap_cons,List.flatMap_nil,List.append_nil]
    rw [hcons,List.length_append] at hfits
    obtain ⟨io₁,sent,P₁,hstep,h₁,hstate₁,hsplit⟩ := h.step_calm hstate hfuel (hes e List.mem_cons_self) (by omega)
    have hlen := congrArg List.length hsplit
    rw [List.length_append,List.length_append] at hlen
    obtain ⟨io₂,log,P₂,hrun,h₂,hstate₂,hsplit'⟩ :=
      ih h₁ hstate₁ (fun e' he' => hes e' (List.mem_cons_of_mem e he')) (by omega)
    refine ⟨io₂,(e,sent) :: log,P₂,?_,h₂,hstate₂,?_⟩
    · simp only [WriteIo.run,hstep,ok_bind,hrun]
      rfl
    · have hsent : sentBytes ((e,sent) :: log) = sent.bytes ++ sentBytes log := rfl
      rw [hcons,hsent,← List.append_assoc,hsplit,List.append_assoc,hsplit',List.append_assoc]

end FDemo.Libhv
