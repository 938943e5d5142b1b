import FDemo.Libhv.Unpack

/-! # Frames on the TCP stream

`UnPack` puts a magic number and the length in front of a payload, the unpack
settings tell libhv where to find the length, and the handler strips the header.
The three fit together for every way of cutting the stream into reads.
-/
namespace FDemo.MapServer
open Libhv

def headBodyLength : ℕ := 8

def magicNumber : UInt32 := 0x12345678

def defaultPackageMaxLength : UInt32 := (1 : UInt32) <<< 21

def toBigEndianByteStream (data : Bytes) : Bytes :=
  serialize magicNumber ++ serialize (UInt32.ofNat data.length) ++ data

/-- The settings given to `tcpServer.setUnpack`. -/
def unpackSetting : UnpackSetting where
  packageMaxLength := defaultPackageMaxLength
  bodyOffset := UInt16.ofNat headBodyLength
  lengthFieldOffset := 4
  lengthFieldBytes := 4
  lengthAdjustment := 0
  lengthFieldCoding := .bigEndian

/-- `(char*)buf->data()+head_body_length` with `buf->size()-head_body_length` bytes. -/
def stripHeader (buf : Bytes) : Bytes := buf.drop headBodyLength

def lengthField (p : Bytes) : UInt32 := readBigEndian ((p.drop 4).take 4)

@[simp] theorem bodyOffset_toNat : unpackSetting.bodyOffset.toNat = 8 := rfl

theorem announced_eq (p : Bytes) : announced unpackSetting p = 8 + lengthField p := by
  have hzero : ∀ a : UInt32, a + 0 = a := fun a => by simp
  exact hzero (8 + lengthField p)

theorem lengthField_append {p : Bytes} (hp : 8 ≤ p.length) (q : Bytes) :
    lengthField (p ++ q) = lengthField p := by
  unfold lengthField
  rw [List.drop_append_of_le_length (by omega),List.take_append_of_le_length (by simp; omega)]

@[simp] theorem length_toBigEndianByteStream (data : Bytes) :
    (toBigEndianByteStream data).length = data.length + 8 := by
  simp [toBigEndianByteStream]
  omega

@[simp] theorem stripHeader_toBigEndianByteStream (data : Bytes) :
    stripHeader (toBigEndianByteStream data) = data := by
  have hhead : (serialize magicNumber ++ serialize (UInt32.ofNat data.length)).length = headBodyLength := by
    simp [headBodyLength]
  unfold stripHeader toBigEndianByteStream
  rw [← hhead,List.drop_left]

theorem lengthField_toBigEndianByteStream (data : Bytes) :
    lengthField (toBigEndianByteStream data) = UInt32.ofNat data.length := by
  unfold lengthField toBigEndianByteStream
  rw [List.append_assoc,List.drop_left' (length_serialize _ _ _),List.take_left' (length_serialize _ _ _),
    readBigEndian_serialize]

/-- A payload that fits into a package. -/
def Fits (data : Bytes) : Prop := data.length ≤ defaultPackageMaxLength.toNat - headBodyLength

theorem announced_toBigEndianByteStream {data : Bytes} (h : Fits data) :
    (announced unpackSetting (toBigEndianByteStream data)).toNat = (toBigEndianByteStream data).length := by
  have hle : data.length ≤ 2 ^ 21 - 8 := h
  rw [announced_eq,lengthField_toBigEndianByteStream,UInt32.toNat_add,UInt32.toNat_ofNat',
    length_toBigEndianByteStream,show (8 : UInt32).toNat = 8 from rfl]
  omega

theorem announced_append {p : Bytes} (hp : 8 ≤ p.length) (q : Bytes) :
    announced unpackSetting (p ++ q) = announced unpackSetting p := by
  rw [announced_eq,announced_eq,lengthField_append hp]

theorem framing : Framing (takePackage unpackSetting) toBigEndianByteStream Fits where
  peel_encode data rest h := by
    have hlen := announced_toBigEndianByteStream h
    have happ := announced_append (by simp : 8 ≤ (toBigEndianByteStream data).length) rest
    refine (takePackage_eq_some rfl).mpr ⟨by simp; omega,?_,?_,?_⟩
    · rw [happ,hlen,List.length_append]
      omega
    · rw [happ,hlen,List.take_left]
    · rw [happ,hlen,List.drop_left]
  peel_part data p q h hsplit hq := by
    apply (takePackage_eq_none rfl).mpr
    by_cases hp : 8 ≤ p.length
    · right
      have hlen := announced_toBigEndianByteStream h
      have hpos := List.length_pos_of_ne_nil hq
      rw [hsplit,announced_append hp,List.length_append] at hlen
      omega
    · exact Or.inl (Nat.not_le.mp hp)
  peel_nil := (takePackage_eq_none rfl).mpr (Or.inl (by simp))

/-- A read that ends anywhere in a stream of fitting frames hands out the frames it completes. -/
theorem hioRead_frames {payloads : List Bytes} (hfit : ∀ x ∈ payloads, Fits x) {io : Hio} (hopen : io.closed = false)
    {buf rest : Bytes} (hcut : (payloads.map toBigEndianByteStream).flatten = (io.readbuf ++ buf) ++ rest)
    {fuel : ℕ} (hfuel : payloads.length < fuel) : ∃ ys zs io', payloads = ys ++ zs ∧
      hioRead unpackSetting fuel io buf = some (ys.map toBigEndianByteStream,io') ∧ io'.closed = false ∧
      takePackage unpackSetting io'.readbuf = none ∧
      (zs.map toBigEndianByteStream).flatten = io'.readbuf ++ rest := by
  obtain ⟨ys,zs,r,rfl,hdrains,hrest⟩ := framing.drains_split hfit hcut
  have hframe : ∀ x ∈ ys ++ zs, (toBigEndianByteStream x).length ≤ defaultPackageMaxLength.toNat := by
    intro x hx
    have hle : x.length ≤ 2 ^ 21 - 8 := hfit x hx
    rw [length_toBigEndianByteStream,show defaultPackageMaxLength.toNat = 2 ^ 21 from rfl]
    omega
  have hpending : 8 ≤ r.length → announced unpackSetting r ≤ defaultPackageMaxLength := by
    intro hr
    cases zs with
    | nil =>
      obtain ⟨rfl,-⟩ := List.append_eq_nil_iff.mp hrest.symm
      simp at hr
    | cons z zs =>
      have hz := hfit z (by simp)
      have hlen := announced_toBigEndianByteStream hz
      rw [List.map_cons,List.flatten_cons] at hrest
      have heq : announced unpackSetting r = announced unpackSetting (toBigEndianByteStream z) := by
        rw [← announced_append hr rest,← hrest,announced_append (by simp)]
      rw [heq,UInt32.le_iff_toNat_le,hlen]
      exact hframe z (by simp)
  have henough : (ys.map toBigEndianByteStream).length < fuel := by
    simp only [List.length_append,List.length_map] at hfuel ⊢
    omega
  have hinit : unpackSetting.bodyOffset.toUInt32 ≤ defaultPackageMaxLength := by decide
  obtain ⟨n,hloop,hn⟩ := unpackLoop_of_drains (P := (· ≤ defaultPackageMaxLength)) rfl hdrains henough hinit
    (by
      intro f hf n hfn
      obtain ⟨x,hx,rfl⟩ := List.mem_map.mp hf
      rw [UInt32.le_iff_toNat_le,← hfn]
      exact hframe x (by simp [hx])) hpending
  have hsettle : (settle unpackSetting io ⟨ys.map toBigEndianByteStream,r,n,false⟩).closed = false ∧
      (settle unpackSetting io ⟨ys.map toBigEndianByteStream,r,n,false⟩).readbuf = r := by
    have hmax : ¬ unpackSetting.packageMaxLength < n := UInt32.not_lt.mpr hn
    by_cases hgrow : r ≠ [] ∧ io.readbufLen < n.toNat <;> simp [settle,hgrow,hmax,hopen]
  refine ⟨ys,zs,_,rfl,?_,hsettle.1,?_,?_⟩
  · simp only [hioRead,hopen,Bool.false_eq_true,↓reduceIte,hioUnpackByLengthField,hloop,Option.map_some]
  · rw [hsettle.2]
    exact hdrains.waits
  · rw [hsettle.2]
    exact hrest

theorem hioReads_frames {payloads chunks : List Bytes} (hfit : ∀ x ∈ payloads, Fits x) {io : Hio}
    (hopen : io.closed = false) (hwait : takePackage unpackSetting io.readbuf = none)
    (hcut : (payloads.map toBigEndianByteStream).flatten = io.readbuf ++ chunks.flatten) {fuel : ℕ}
    (hfuel : payloads.length < fuel) : ∃ io', hioReads unpackSetting fuel io chunks =
      some (payloads.map toBigEndianByteStream,io') ∧ io'.readbuf = [] ∧ io'.closed = false := by
  induction chunks generalizing payloads io with
  | nil =>
    cases payloads with
    | nil => exact ⟨io,rfl,by simpa using hcut.symm,hopen⟩
    | cons x xs =>
      have hsome := framing.peel_encode x (xs.map toBigEndianByteStream).flatten (hfit x List.mem_cons_self)
      rw [← List.flatten_cons,← List.map_cons,hcut,List.flatten_nil,List.append_nil,hwait] at hsome
      exact absurd hsome (Option.some_ne_none _).symm
  | cons buf chunks ih =>
    rw [List.flatten_cons,← List.append_assoc] at hcut
    obtain ⟨ys,zs,io',rfl,hread,hopen',hwait',hrest⟩ := hioRead_frames hfit hopen hcut hfuel
    obtain ⟨io'',hreads,hempty,hopen''⟩ := ih (fun z hz => hfit z (List.mem_append_right ys hz)) hopen' hwait'
      hrest (by simp only [List.length_append] at hfuel; omega)
    exact ⟨io'',by simp [hioReads,hread,hreads],hempty,hopen''⟩

/-- However the frames are cut into reads, the handler gets every payload once and in order, and no
byte is left over. -/
theorem stream_framing (payloads chunks : List Bytes)
    (hfit : ∀ x ∈ payloads, x.length ≤ defaultPackageMaxLength.toNat - headBodyLength)
    (hcut : chunks.flatten = (payloads.map toBigEndianByteStream).flatten) (readbufLen fuel : ℕ)
    (hfuel : payloads.length < fuel) : ∃ calls io,
      hioReads unpackSetting fuel { readbufLen := readbufLen } chunks = some (calls,io) ∧
      calls = payloads.map toBigEndianByteStream ∧ calls.map stripHeader = payloads ∧
      io.readbuf = [] ∧ io.closed = false := by
  have hfresh : ({ readbufLen := readbufLen } : Hio).closed = false := rfl
  obtain ⟨io,hreads,hempty,hopen⟩ := hioReads_frames hfit hfresh framing.peel_nil (by simpa using hcut.symm) hfuel
  exact ⟨_,io,hreads,rfl,by simp [Function.comp_def],hempty,hopen⟩

/-- Two payloads, one of them empty, cut inside the magic number and inside the length. -/
theorem stream_framing_cut : ∃ calls io,
    hioReads unpackSetting 3 { readbufLen := 8192 }
      [[0x12,0x34],[0x56,0x78,0,0,0,1,0x41,0x12,0x34,0x56,0x78,0],[0,0,0]] = some (calls,io) ∧
    calls = [[0x41],[]].map toBigEndianByteStream ∧ calls.map stripHeader = [[0x41],[]] ∧
    io.readbuf = [] ∧ io.closed = false :=
  stream_framing [[0x41],[]] _ (by decide) (by decide) 8192 3 (by decide)

end FDemo.MapServer
