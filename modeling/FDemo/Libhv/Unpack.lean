import FDemo.Foundation.Framing
import FDemo.Libhv.Endian

/-! # `unpack.c`: packages by length field

The bytes between `sp` and `ep` are what is left over from earlier reads followed
by the new read. Their number is a natural number: the capacity of the read
buffer does not limit a read. The loop has fuel, since a package of length zero
never ends it.
-/
namespace FDemo.Libhv

inductive UnpackCoding where
  | varint
  | littleEndian
  | bigEndian
  deriving DecidableEq

/-- The part of `unpack_setting_t` for `UNPACK_BY_LENGTH_FIELD`. -/
structure UnpackSetting where
  packageMaxLength : UInt32
  bodyOffset : UInt16
  lengthFieldOffset : UInt16
  lengthFieldBytes : UInt16
  lengthAdjustment : Int16
  lengthFieldCoding : UnpackCoding

/-- `varint_decode`: the value and its size, too few bytes, or no end within ten bytes. -/
inductive Varint where
  | decoded (value : UInt64) (bytes : ℕ)
  | notEnough
  | tooBig

/-- The loop of `varint_decode`, with `fuel` bytes still allowed. -/
def varintLoop : ℕ → Bytes → ℕ → UInt64 → Varint
  | 0, _, _, _ => .tooBig
  | _ + 1, [], _, _ => .notEnough
  | fuel + 1, b :: bs, bytes, ret =>
    let ret := ret ||| (b &&& 0x7F).toUInt64 <<< UInt64.ofNat (7 * bytes)
    if b &&& 0x80 = 0 then .decoded ret (bytes + 1) else varintLoop fuel bs (bytes + 1) ret

def varintDecode (bs : Bytes) : Varint := varintLoop 10 bs 0 0

/-- What the length field at the front of the pending bytes says. -/
inductive Package where
  | length (n : UInt32)
  | incomplete
  | overLimit
  deriving DecidableEq

/-- `package_len = head_len + body_len + length_adjustment` in `unsigned int`. -/
def packageLen (s : UnpackSetting) (p : Bytes) : Package :=
  let field := p.drop s.lengthFieldOffset.toNat
  let adjustment := s.lengthAdjustment.toInt32.toUInt32
  match s.lengthFieldCoding with
  | .bigEndian =>
    .length (s.bodyOffset.toUInt32 + readBigEndian (field.take s.lengthFieldBytes.toNat) + adjustment)
  | .littleEndian =>
    .length (s.bodyOffset.toUInt32 + readLittleEndian (field.take s.lengthFieldBytes.toNat) + adjustment)
  | .varint =>
    match varintDecode field with
    | .notEnough => .incomplete
    | .tooBig => .overLimit
    | .decoded value bytes =>
      .length (s.bodyOffset.toUInt32 + UInt32.ofNat bytes - s.lengthFieldBytes.toUInt32 + value.toUInt32 + adjustment)

/-- Where the loop ends: the buffers handed to `hio_read_cb`, the bytes that remain, the last value
of `package_len`, and whether a varint was too big. -/
structure Unpacked where
  calls : List Bytes
  remain : Bytes
  packageLen : UInt32
  overLimit : Bool
  deriving DecidableEq

/-- `while (remain >= setting->body_offset)`. -/
def unpackLoop (s : UnpackSetting) : ℕ → Bytes → UInt32 → Option Unpacked
  | 0, _, _ => none
  | fuel + 1, p, len =>
    if s.bodyOffset.toNat ≤ p.length then
      match packageLen s p with
      | .incomplete => some ⟨[],p,len,false⟩
      | .overLimit => some ⟨[],p,len,true⟩
      | .length n =>
        if n.toNat ≤ p.length then
          (unpackLoop s fuel (p.drop n.toNat) n).map fun u => { u with calls := p.take n.toNat :: u.calls }
        else some ⟨[],p,n,false⟩
    else some ⟨[],p,len,false⟩

/-- The connection: the bytes pending in its read buffer, the length of that buffer, and whether it
was closed. -/
structure Hio where
  readbuf : Bytes := []
  readbufLen : ℕ
  closed : Bool := false
  deriving DecidableEq

def limit (lower v upper : ℕ) : ℕ := if v < lower then lower else if upper < v then upper else v

/-- The end of `hio_unpack_by_length_field`. -/
def settle (s : UnpackSetting) (io : Hio) (u : Unpacked) : Hio :=
  if u.overLimit then { io with closed := true }
  else if u.remain ≠ [] ∧ io.readbufLen < u.packageLen.toNat then
    if s.packageMaxLength < u.packageLen then { io with readbuf := u.remain, closed := true }
    else
      { io with
        readbuf := u.remain
        readbufLen := limit u.packageLen.toNat (io.readbufLen * 2) s.packageMaxLength.toNat }
  else { io with readbuf := u.remain }

def hioUnpackByLengthField (s : UnpackSetting) (fuel : ℕ) (io : Hio) (buf : Bytes) : Option (List Bytes × Hio) :=
  (unpackLoop s fuel (io.readbuf ++ buf) s.bodyOffset.toUInt32).map fun u => (u.calls,settle s io u)

/-- A closed connection reads nothing. -/
def hioRead (s : UnpackSetting) (fuel : ℕ) (io : Hio) (buf : Bytes) : Option (List Bytes × Hio) :=
  if io.closed then some ([],io) else hioUnpackByLengthField s fuel io buf

def hioReads (s : UnpackSetting) (fuel : ℕ) : Hio → List Bytes → Option (List Bytes × Hio)
  | io, [] => some ([],io)
  | io, buf :: bufs => do
    let (calls,io) ← hioRead s fuel io buf
    let (rest,io) ← hioReads s fuel io bufs
    return (calls ++ rest,io)

/-- One round of the loop as a step on the pending bytes. -/
def takePackage (s : UnpackSetting) (p : Bytes) : Option (Bytes × Bytes) :=
  if s.bodyOffset.toNat ≤ p.length then
    match packageLen s p with
    | .length n => if n.toNat ≤ p.length then some (p.take n.toNat,p.drop n.toNat) else none
    | _ => none
  else none

section BigEndian
variable {s : UnpackSetting} (hbe : s.lengthFieldCoding = .bigEndian)

/-- The package length that a big-endian length field announces. -/
def announced (s : UnpackSetting) (p : Bytes) : UInt32 :=
  s.bodyOffset.toUInt32 + readBigEndian ((p.drop s.lengthFieldOffset.toNat).take s.lengthFieldBytes.toNat) +
    s.lengthAdjustment.toInt32.toUInt32

include hbe

theorem packageLen_eq (p : Bytes) : packageLen s p = .length (announced s p) := by
  simp only [packageLen,hbe,announced]

theorem takePackage_eq_some {p f q : Bytes} : takePackage s p = some (f,q) ↔ s.bodyOffset.toNat ≤ p.length ∧
    (announced s p).toNat ≤ p.length ∧ f = p.take (announced s p).toNat ∧ q = p.drop (announced s p).toNat := by
  unfold takePackage
  by_cases hhead : s.bodyOffset.toNat ≤ p.length
  · by_cases hlen : (announced s p).toNat ≤ p.length <;> simp [hhead,hlen,packageLen_eq hbe,eq_comm]
  · simp [hhead]

theorem takePackage_eq_none {p : Bytes} : takePackage s p = none ↔
    p.length < s.bodyOffset.toNat ∨ p.length < (announced s p).toNat := by
  unfold takePackage
  by_cases hhead : s.bodyOffset.toNat ≤ p.length
  · by_cases hlen : (announced s p).toNat ≤ p.length
    · simp [hhead,hlen,packageLen_eq hbe]
    · simp [hhead,hlen,packageLen_eq hbe,Nat.not_le.mp hlen]
  · simp [hhead,Nat.not_le.mp hhead]

/-- With fuel for every package the loop ends where draining does. The last `package_len` is the one
announced there, or that of the last package, or the initial one. -/
theorem unpackLoop_of_drains {p r : Bytes} {fs : List Bytes} (h : Drains (takePackage s) p fs r) {fuel : ℕ}
    (hfuel : fs.length < fuel) {P : UInt32 → Prop} {len : UInt32} (hlen : P len)
    (hfs : ∀ f ∈ fs, ∀ n : UInt32, f.length = n.toNat → P n)
    (hr : s.bodyOffset.toNat ≤ r.length → P (announced s r)) :
    ∃ n, unpackLoop s fuel p len = some ⟨fs,r,n,false⟩ ∧ P n := by
  induction h generalizing fuel len with
  | @wait p hp =>
    obtain ⟨fuel,rfl⟩ := Nat.exists_eq_add_one_of_ne_zero (Nat.ne_of_gt (Nat.zero_lt_of_lt hfuel))
    by_cases hhead : s.bodyOffset.toNat ≤ p.length
    · have hshort : ¬ (announced s p).toNat ≤ p.length := by
        have := (takePackage_eq_none hbe).mp hp
        omega
      exact ⟨announced s p,by simp [unpackLoop,hhead,packageLen_eq hbe,hshort],hr hhead⟩
    · exact ⟨len,by simp [unpackLoop,hhead],hlen⟩
  | @take p f q fs r hp _ ih =>
    obtain ⟨hhead,hle,rfl,rfl⟩ := (takePackage_eq_some hbe).mp hp
    obtain ⟨fuel,rfl⟩ := Nat.exists_eq_add_one_of_ne_zero (Nat.ne_of_gt (Nat.zero_lt_of_lt hfuel))
    have hn : P (announced s p) := hfs _ List.mem_cons_self _ (by simpa using hle)
    obtain ⟨n,hloop,hPn⟩ := ih (by simpa using hfuel) hn (fun f hf => hfs f (List.mem_cons_of_mem _ hf)) hr
    exact ⟨n,by simp [unpackLoop,hhead,hle,packageLen_eq hbe,hloop],hPn⟩

theorem drains_of_unpackLoop {fuel : ℕ} {p : Bytes} {len : UInt32} {u : Unpacked}
    (h : unpackLoop s fuel p len = some u) : Drains (takePackage s) p u.calls u.remain := by
  induction fuel generalizing p len u with
  | zero => exact absurd h (by simp [unpackLoop])
  | succ fuel ih =>
    by_cases hhead : s.bodyOffset.toNat ≤ p.length
    · by_cases hle : (announced s p).toNat ≤ p.length
      · simp only [unpackLoop,hhead,hle,packageLen_eq hbe,↓reduceIte,Option.map_eq_some_iff] at h
        obtain ⟨v,hv,rfl⟩ := h
        exact .take ((takePackage_eq_some hbe).mpr ⟨hhead,hle,rfl,rfl⟩) (ih hv)
      · simp only [unpackLoop,hhead,hle,packageLen_eq hbe,↓reduceIte,Option.some.injEq] at h
        subst h
        exact .wait ((takePackage_eq_none hbe).mpr (Or.inr (Nat.not_le.mp hle)))
    · simp only [unpackLoop,hhead,↓reduceIte,Option.some.injEq] at h
      subst h
      exact .wait ((takePackage_eq_none hbe).mpr (Or.inl (Nat.not_le.mp hhead)))

end BigEndian
end FDemo.Libhv
