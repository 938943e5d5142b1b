import FDemo.Libhv.BufferRefinement
import FDemo.MapServer.StreamFraming

/-! # The frames of a peer, through the read buffer

The server's setting is served, and no frame of a fitting payload is over the
limit. So a stream of frames reaches the handler whole, through a buffer of at
most two megabytes that begins with eight kilobytes.
-/
namespace FDemo.MapServer
open Libhv

def streamSetting : Setting := .lengthField unpackSetting

theorem streamSetting_served : streamSetting.Served := .lengthField rfl (by decide) (by decide) (by decide)

@[simp] theorem withDefault_streamSetting : streamSetting.withDefault = streamSetting := rfl

@[simp] theorem packageMaxLength_streamSetting : streamSetting.packageMaxLength.toNat = 2 ^ 21 := rfl

/-- The frames are recognised within the limit as well. -/
theorem framing_within : Framing streamSetting.peel toBigEndianByteStream Fits where
  peel_encode data rest h := by
    have hmax : data.length ≤ 2 ^ 21 - 8 := h
    refine (Setting.peel_lengthField_eq_some rfl).mpr ⟨framing.peel_encode data rest h,?_⟩
    rw [announced_append (by simp),UInt32.le_iff_toNat_le,announced_toBigEndianByteStream h,
      length_toBigEndianByteStream]
    show _ ≤ 2 ^ 21
    omega
  peel_part data p q h hsplit hq := by simp [streamSetting,Setting.peel,framing.peel_part data p q h hsplit hq]
  peel_nil := by simp [streamSetting,Setting.peel,framing.peel_nil]

/-- The beginning of a stream of frames is never over the limit. -/
theorem not_over_beginning {payloads : List Bytes} (hfit : ∀ x ∈ payloads, Fits x) {r rest : Bytes}
    (h : (payloads.map toBigEndianByteStream).flatten = r ++ rest) : ¬ streamSetting.exceeds r := by
  rintro ⟨hne,hhead,hover⟩
  cases payloads with
  | nil => exact hne (List.append_eq_nil_iff.mp h.symm).1
  | cons x xs =>
    have hx := hfit x List.mem_cons_self
    have hmax : x.length ≤ 2 ^ 21 - 8 := hx
    rw [List.map_cons,List.flatten_cons] at h
    have hsame : announced unpackSetting r = announced unpackSetting (toBigEndianByteStream x) := by
      rw [← announced_append hhead rest,← h,announced_append (by simp)]
    rw [hsame,UInt32.lt_iff_toNat_lt,announced_toBigEndianByteStream hx,length_toBigEndianByteStream] at hover
    have : (2 : ℕ) ^ 21 < x.length + 8 := hover
    omega

/-- A readable event hands out the frames it completes. -/
theorem nioRead_frames {payloads : List Bytes} (hfit : ∀ x ∈ payloads, Fits x) {io : ReadIo} {P queue : Bytes}
    (h : Ready streamSetting io P) (hwait : streamSetting.peel P = none)
    (hcut : (payloads.map toBigEndianByteStream).flatten = P ++ queue) {fuel : ℕ}
    (hfuel : defaultPackageMaxLength.toNat < fuel) (count : ℕ) : ∃ ys zs io' r rest, payloads = ys ++ zs ∧
      io.nioRead streamSetting fuel queue count = .ok (ys.map toBigEndianByteStream,io',rest) ∧
      Ready streamSetting io' r ∧ streamSetting.peel r = none ∧
      (zs.map toBigEndianByteStream).flatten = r ++ rest := by
  have hevent := nioRead_event streamSetting_served (by decide) hfuel
    (.pending (.wait hwait) (not_over_beginning hfit hcut)) h queue count
  rcases hrun : io.nioRead streamSetting fuel queue count with t | ⟨calls,io',rest⟩ <;> rw [hrun] at hevent
  · obtain ⟨-,got,⟨rest,rfl⟩,hstuck⟩ := hevent
    rw [← List.append_assoc] at hcut
    obtain ⟨ys,-,r,-,hd,-⟩ := framing_within.drains_split hfit hcut
    exact absurd hd (hstuck _ r)
  obtain ⟨got,o,rfl,hreads,hkeeps⟩ := hevent
  rw [← List.append_assoc] at hcut
  obtain ⟨ys,zs,r,rfl,hd,hrest⟩ := framing_within.drains_split hfit hcut
  have hzs : ∀ x ∈ zs, Fits x := fun x hx => hfit x (List.mem_append_right ys hx)
  obtain ⟨rfl,rfl⟩ := (Reads.pending hd (not_over_beginning hzs hrest)).unique hreads
  cases hkeeps with
  | pending hready => exact ⟨ys,zs,io',r,rest,rfl,rfl,hready,hd.waits,hrest⟩

/-- Reads that get the whole stream get every frame. -/
theorem nioReads_frames {payloads : List Bytes} (hfit : ∀ x ∈ payloads, Fits x) {counts : List ℕ}
    (hpos : ∀ count ∈ counts, 0 < count)
    (hcounts : (payloads.map toBigEndianByteStream).flatten.length ≤ counts.length) {fuel : ℕ}
    (hfuel : defaultPackageMaxLength.toNat < fuel) : ∃ io io',
      ReadIo.hioSetUnpack streamSetting = .ok (streamSetting,io) ∧
      io.nioReads streamSetting fuel (payloads.map toBigEndianByteStream).flatten counts =
        .ok (payloads.map toBigEndianByteStream,io',[]) ∧ io'.closed = false ∧ io'.readbuf.tail = 0 := by
  obtain ⟨io,hset,hready⟩ :=
    hioSetUnpack_ready (show streamSetting.withDefault.Served from streamSetting_served) (by decide)
  rw [withDefault_streamSetting] at hset hready
  have hnil := streamSetting_served.reads_nil (by decide)
  have hevent := nioReads_event streamSetting_served (by decide) hfuel hnil (.pending hready)
    (payloads.map toBigEndianByteStream).flatten counts
  rcases hrun : io.nioReads streamSetting fuel (payloads.map toBigEndianByteStream).flatten counts with
    t | ⟨calls,io',rest⟩ <;> rw [hrun] at hevent
  · obtain ⟨-,got,⟨rest,hgot⟩,hstuck⟩ := hevent
    obtain ⟨ys,-,r,-,hd,-⟩ := framing_within.drains_split hfit hgot.symm
    exact absurd hd (hstuck _ r)
  obtain ⟨got,o,hgot,hreads,hkeeps⟩ := hevent
  rw [List.nil_append,List.nil_append] at hreads
  obtain ⟨ys,zs,r,rfl,hd,hrest⟩ := framing_within.drains_split hfit hgot
  have hzs : ∀ x ∈ zs, Fits x := fun x hx => hfit x (List.mem_append_right ys hx)
  obtain ⟨rfl,rfl⟩ := (Reads.pending hd (not_over_beginning hzs hrest)).unique hreads
  cases hkeeps with
  | pending hready =>
    obtain rfl : rest = [] := (nioReads_progress hpos hcounts hrun).resolve_left (by simp [hready.opened])
    rw [List.append_nil] at hrest
    obtain rfl : zs = [] := by
      cases zs with
      | nil => rfl
      | cons z zs =>
        have hsome := framing_within.peel_encode z (zs.map toBigEndianByteStream).flatten (hzs z List.mem_cons_self)
        rw [← List.flatten_cons,← List.map_cons,hrest,hd.waits] at hsome
        exact absurd hsome (Option.some_ne_none _).symm
    refine ⟨io,io',hset,by simpa only [List.append_nil] using hrun,hready.opened,?_⟩
    rw [hready.tail,← hrest]
    rfl

/-- However the socket gives the bytes, the handler gets every payload once and in order, the
connection stays open and the buffer is empty again. -/
theorem buffered_stream_framing (payloads : List Bytes)
    (hfit : ∀ x ∈ payloads, x.length ≤ defaultPackageMaxLength.toNat - headBodyLength) (counts : List ℕ)
    (hpos : ∀ count ∈ counts, 0 < count)
    (hcounts : (payloads.map toBigEndianByteStream).flatten.length ≤ counts.length) (fuel : ℕ)
    (hfuel : defaultPackageMaxLength.toNat < fuel) : ∃ io io',
      ReadIo.hioSetUnpack streamSetting = .ok (streamSetting,io) ∧
      io.nioReads streamSetting fuel (payloads.map toBigEndianByteStream).flatten counts =
        .ok (payloads.map toBigEndianByteStream,io',[]) ∧
      (payloads.map toBigEndianByteStream).map stripHeader = payloads ∧ io'.closed = false ∧
      io'.readbuf.tail = 0 := by
  obtain ⟨io,io',hset,hrun,hopen,htail⟩ := nioReads_frames hfit hpos hcounts hfuel
  exact ⟨io,io',hset,hrun,by simp [Function.comp_def],hopen,htail⟩

/-- Two payloads, one of them empty, in reads of three bytes. -/
theorem buffered_stream_framing_threes : ∃ io io',
    ReadIo.hioSetUnpack streamSetting = .ok (streamSetting,io) ∧
    io.nioReads streamSetting (2 ^ 21 + 1) ([[0x41],[]].map toBigEndianByteStream).flatten (List.replicate 17 3) =
      .ok ([[0x41],[]].map toBigEndianByteStream,io',[]) ∧
    ([[0x41],[]].map toBigEndianByteStream).map stripHeader = [[0x41],[]] ∧ io'.closed = false ∧
    io'.readbuf.tail = 0 :=
  buffered_stream_framing [[0x41],[]] (by decide) (List.replicate 17 3) (by decide) (by decide) (2 ^ 21 + 1) (by decide)

/-- Whatever a peer sends, a run of the socket layer is a run of the list-level connection on the
chunks it received: same packages, same pending bytes, closed alike. It fails for no other reason than
a package of length zero. -/
theorem nioReads_streamSetting (queue : Bytes) (counts : List ℕ) (fuel : ℕ)
    (hfuel : defaultPackageMaxLength.toNat < fuel) : ∃ io,
    ReadIo.hioSetUnpack streamSetting = .ok (streamSetting,io) ∧
    match io.nioReads streamSetting fuel queue counts with
    | .error t => t = .fuel
    | .ok (calls,io',rest) => ∃ chunks hio, queue = chunks.flatten ++ rest ∧
        hioReads unpackSetting fuel { readbufLen := hloopReadBufsize } chunks = some (calls,hio) ∧
        hio.closed = io'.closed ∧ (io'.closed = false → io'.readbuf.base.take io'.readbuf.tail = hio.readbuf) := by
  obtain ⟨io,hset,hready⟩ :=
    hioSetUnpack_ready (show streamSetting.withDefault.Served from streamSetting_served) (by decide)
  rw [withDefault_streamSetting] at hset hready
  have hnil := streamSetting_served.reads_nil (by decide)
  have hevent := nioReads_event streamSetting_served (by decide) hfuel hnil (.pending hready) queue counts
  refine ⟨io,hset,?_⟩
  rcases hrun : io.nioReads streamSetting fuel queue counts with t | ⟨calls,io',rest⟩ <;> rw [hrun] at hevent
  · exact hevent.1
  obtain ⟨chunks,hio,o,hqueue,hreads,-,hkeeps,hfollows⟩ := nioReads_hioReads (s := unpackSetting) streamSetting_served
    (by decide) hfuel (show Refines unpackSetting [] [] io { readbufLen := hloopReadBufsize } (some []) from
      ⟨hnil,.pending hready,rfl,rfl,by decide⟩) hrun
  refine ⟨chunks,hio,hqueue,hreads,?_⟩
  cases hkeeps with
  | closed hclosed => exact ⟨Eq.trans hfollows hclosed.symm,fun h => absurd (h.symm.trans hclosed) Bool.false_ne_true⟩
  | pending hready' =>
    obtain ⟨hopen,hbuf,-⟩ := hfollows
    refine ⟨hopen.trans hready'.opened.symm,fun _ => ?_⟩
    rw [hready'.tail,← List.prefix_iff_eq_take.mp hready'.contents,hbuf]

/-- A package in three reads, the last of which begins the next one. -/
theorem nioReads_streamSetting_partial : ∃ io, ReadIo.hioSetUnpack streamSetting = .ok (streamSetting,io) ∧
    match io.nioReads streamSetting (2 ^ 21 + 1) (toBigEndianByteStream [0x41] ++ [0x12,0x34]) [6,2,3] with
    | .error t => t = .fuel
    | .ok (calls,io',rest) => ∃ chunks hio, toBigEndianByteStream [0x41] ++ [0x12,0x34] = chunks.flatten ++ rest ∧
        hioReads unpackSetting (2 ^ 21 + 1) { readbufLen := hloopReadBufsize } chunks = some (calls,hio) ∧
        hio.closed = io'.closed ∧ (io'.closed = false → io'.readbuf.base.take io'.readbuf.tail = hio.readbuf) :=
  nioReads_streamSetting (toBigEndianByteStream [0x41] ++ [0x12,0x34]) [6,2,3] (2 ^ 21 + 1) (by decide)

end FDemo.MapServer
