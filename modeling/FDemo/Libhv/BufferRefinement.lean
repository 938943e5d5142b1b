import FDemo.Libhv.BufferedReads

/-! # The buffer behind the pending bytes

`Hio` knows the pending bytes of a connection and no buffer. With reads that fit
into the buffer it hands out the same packages and is closed by the same reads as
the connection with the buffer, so that what holds of every way to cut a stream
for `Hio` holds of every run of `nio_read`.
-/
namespace FDemo.Libhv

variable {s : UnpackSetting} {io : ReadIo} {hio : Hio} {P : Bytes} {fuel : ℕ}

/-- The pending bytes, and a buffer length within the limit. -/
def Follows (s : UnpackSetting) (hio : Hio) : Option Bytes → Prop
  | none => hio.closed = true
  | some r => hio.closed = false ∧ hio.readbuf = r ∧ hio.readbufLen ≤ s.packageMaxLength.toNat

/-- A read of `Hio` that stays within the limit. -/
theorem hioRead_reads (hbe : s.lengthFieldCoding = .bigEndian) (hhead : s.bodyOffset.toUInt32 ≤ s.packageMaxLength)
    (hopen : hio.closed = false) (hlen : hio.readbufLen ≤ s.packageMaxLength.toNat) {bs : Bytes}
    (hmax : (hio.readbuf ++ bs).length ≤ s.packageMaxLength.toNat) (hfuel : (hio.readbuf ++ bs).length < fuel) :
    match hioRead s fuel hio bs with
    | none => ∀ fs r, ¬ Drains (Setting.lengthField s).peel (hio.readbuf ++ bs) fs r
    | some (calls,hio') => ∃ o,
        Reads (Setting.lengthField s).peel (Setting.lengthField s).exceeds (hio.readbuf ++ bs) calls o ∧
        Follows s hio' o := by
  have hrun : hioRead s fuel hio bs = (unpackLoop s fuel (hio.readbuf ++ bs) s.bodyOffset.toUInt32).map
      fun u => (u.calls,settle s hio u) := by
    simp only [hioRead,hopen,Bool.false_eq_true,↓reduceIte,hioUnpackByLengthField]
  rw [hrun]
  rcases hloop : unpackLoop s fuel (hio.readbuf ++ bs) s.bodyOffset.toUInt32 with _ | u
  · exact fun fs r hd => unpackLoop_eq_none hbe hfuel hloop ((drains_within hbe hmax).mpr hd)
  have hdrains := (drains_within hbe hmax).mp (drains_of_unpackLoop hbe hloop)
  obtain ⟨hlimit,hend⟩ := unpackLoop_end hbe hloop
  have hpending : ∀ hio', hio'.closed = false → hio'.readbuf = u.remain →
      hio'.readbufLen ≤ s.packageMaxLength.toNat → (u.remain ≠ [] → u.packageLen ≤ s.packageMaxLength) →
      ∃ o, Reads (Setting.lengthField s).peel (Setting.lengthField s).exceeds (hio.readbuf ++ bs) u.calls o ∧
        Follows s hio' o := by
    intro hio' hopen' hbuf hlen' hwithin
    refine ⟨some u.remain,.pending hdrains ?_,hopen',hbuf,hlen'⟩
    rintro ⟨hne,hle,hannounced⟩
    cases hend with
    | package _ hn _ => exact absurd (hn ▸ hannounced) (UInt32.not_lt.mpr (hwithin hne))
    | behind hlt _ _ => exact absurd hle (Nat.not_le.mpr hlt)
    | head hlt _ _ => exact absurd hle (Nat.not_le.mpr hlt)
  simp only [Option.map_some]
  by_cases hgrow : u.remain ≠ [] ∧ hio.readbufLen < u.packageLen.toNat
  · by_cases hover : s.packageMaxLength < u.packageLen
    · have hset : settle s hio u = { hio with readbuf := u.remain, closed := true } := by
        simp only [settle,hlimit,Bool.false_eq_true,↓reduceIte,if_pos hgrow,hover]
      rw [hset]
      refine ⟨none,.gaveUp hdrains ?_,rfl⟩
      rw [UInt32.lt_iff_toNat_lt] at hover
      cases hend with
      | package hle hn _ => exact ⟨hgrow.1,hle,by rwa [← hn,UInt32.lt_iff_toNat_lt]⟩
      | behind _ _ hn => omega
      | head _ _ hn =>
        rw [hn] at hover
        exact absurd hhead (UInt32.not_le.mpr (UInt32.lt_iff_toNat_lt.mpr hover))
    · have hset : settle s hio u = { hio with
          readbuf := u.remain
          readbufLen := limit u.packageLen.toNat (hio.readbufLen * 2) s.packageMaxLength.toNat } := by
        simp only [settle,hlimit,Bool.false_eq_true,↓reduceIte,if_pos hgrow,hover]
      have hle := UInt32.not_lt.mp hover
      rw [hset]
      exact hpending _ hopen rfl (limit_bounds (UInt32.le_iff_toNat_le.mp hle)).2 fun _ => hle
  · have hset : settle s hio u = { hio with readbuf := u.remain } := by
      simp only [settle,hlimit,Bool.false_eq_true,↓reduceIte,if_neg hgrow]
    rw [hset]
    refine hpending _ hopen rfl hlen fun hne => ?_
    rw [UInt32.le_iff_toNat_le]
    exact (Nat.not_lt.mp fun h => hgrow ⟨hne,h⟩).trans hlen

/-- Two connections that read the same stream and keep the same bytes of it. -/
structure Refines (s : UnpackSetting) (c : Bytes) (fs : List Bytes) (io : ReadIo) (hio : Hio) (o : Option Bytes) :
    Prop where
  reads : Reads (Setting.lengthField s).peel (Setting.lengthField s).exceeds c fs o
  keeps : Keeps (.lengthField s) io o
  follows : Follows s hio o

variable (hserved : (Setting.lengthField s).Served) (hint : s.packageMaxLength.toNat < 2 ^ 31)
  (hfuel : s.packageMaxLength.toNat < fuel) {c queue rest : Bytes} {fs calls : List Bytes} {o : Option Bytes}
  {io' : ReadIo}
include hserved hint hfuel

/-- What an event receives is a read of `Hio`. -/
theorem nioRead_hioRead (h : Refines s c fs io hio o) (hopen : io.closed = false) {count : ℕ}
    (hread : io.nioRead (.lengthField s) fuel queue count = .ok (calls,io',rest)) :
    ∃ got hio' o', queue = got ++ rest ∧ hioRead s fuel hio got = some (calls,hio') ∧
      Refines s (c ++ got) (fs ++ calls) io' hio' o' := by
  obtain ⟨hreads,hkeeps,hfollows⟩ := h
  cases hkeeps with
  | closed hclosed => exact absurd (hopen.symm.trans hclosed) Bool.false_ne_true
  | @pending r hready =>
    obtain ⟨hopen',rfl,hlen⟩ := hfollows
    have hevent := nioRead_event hserved hint hfuel hreads hready queue count
    obtain ⟨hroom,hrest⟩ := nioRead_rest hread
    rw [hread] at hevent
    obtain ⟨got,o',rfl,hreads',hkeeps'⟩ := hevent
    have hgot : got.length ≤ io.readbuf.len - io.readbuf.tail := by
      have hlens := congrArg List.length hrest
      rw [List.length_drop,List.length_append] at hlens
      omega
    have hmax : (hio.readbuf ++ got).length ≤ s.packageMaxLength.toNat := by
      have hbound : io.readbuf.len ≤ s.packageMaxLength.toNat := hready.bound
      have htail := hready.tail
      rw [List.length_append]
      omega
    obtain ⟨hbe,hhead⟩ : s.lengthFieldCoding = .bigEndian ∧ s.bodyOffset.toUInt32 ≤ s.packageMaxLength := by
      cases hserved with
      | lengthField hbe _ _ hhead => exact ⟨hbe,hhead⟩
    have hspec := hioRead_reads hbe hhead hopen' hlen hmax (show _ < fuel by omega)
    obtain ⟨hdrains,hover⟩ : Drains (Setting.lengthField s).peel c fs hio.readbuf ∧
        ¬ (Setting.lengthField s).exceeds hio.readbuf := by
      cases hreads with
      | pending hd ho => exact ⟨hd,ho⟩
    rcases hrun : hioRead s fuel hio got with _ | ⟨calls',hio'⟩ <;> rw [hrun] at hspec
    · obtain ⟨t,hd⟩ := hreads'.drains
      obtain ⟨gs,hd'⟩ := hserved.limited.drains_rest hdrains hd
      exact absurd hd' (hspec gs t)
    · obtain ⟨o'',hnew,hfollows'⟩ := hspec
      obtain ⟨hcalls,rfl⟩ := (hserved.limited.reads_more hreads hnew).unique hreads'
      obtain rfl := List.append_cancel_left hcalls
      exact ⟨got,hio',_,rfl,hrun,hreads',hkeeps',hfollows'⟩

/-- Every run through the buffer is a run of `Hio` on the chunks that were received. -/
theorem nioReads_hioReads (h : Refines s c fs io hio o) {counts : List ℕ}
    (hrun : io.nioReads (.lengthField s) fuel queue counts = .ok (calls,io',rest)) :
    ∃ chunks hio' o', queue = chunks.flatten ++ rest ∧ hioReads s fuel hio chunks = some (calls,hio') ∧
      Refines s (c ++ chunks.flatten) (fs ++ calls) io' hio' o' := by
  induction counts generalizing io hio c fs o queue calls with
  | nil =>
    obtain ⟨rfl,rfl,rfl⟩ := Prod.mk.inj (Except.ok.inj hrun) |>.imp id Prod.mk.inj
    exact ⟨[],hio,o,rfl,rfl,by simpa using h⟩
  | cons count counts ih =>
    by_cases hopen : io.closed = false
    · simp only [ReadIo.nioReads,hopen,Bool.false_eq_true,↓reduceIte] at hrun
      obtain ⟨⟨calls₁,io₁,rest₁⟩,hread,hrun⟩ := bind_eq_ok.mp hrun
      obtain ⟨⟨calls₂,io₂,rest₂⟩,hreads,hrun⟩ := bind_eq_ok.mp hrun
      obtain ⟨rfl,rfl,rfl⟩ := Prod.mk.inj (Except.ok.inj hrun) |>.imp id Prod.mk.inj
      obtain ⟨got,hio₁,o₁,rfl,hhio,h₁⟩ := nioRead_hioRead hserved hint hfuel h hopen hread
      obtain ⟨chunks,hio₂,o₂,rfl,hhios,h₂⟩ := ih h₁ hreads
      refine ⟨got :: chunks,hio₂,o₂,by rw [List.flatten_cons,List.append_assoc],by simp [hioReads,hhio,hhios],?_⟩
      rwa [List.flatten_cons,← List.append_assoc,← List.append_assoc]
    · have hclosed : io.closed = true := by simpa using hopen
      simp only [ReadIo.nioReads,hclosed,↓reduceIte] at hrun
      obtain ⟨rfl,rfl,rfl⟩ := Prod.mk.inj (Except.ok.inj hrun) |>.imp id Prod.mk.inj
      exact ⟨[],hio,o,rfl,rfl,by simpa using h⟩

end FDemo.Libhv
