import FDemo.Foundation.Bytes

/-! # `hendian.h`: integers as bytes

`serialize` copies the memory of a value, reversed when the byte orders differ.
Reading bytes most significant first gives the value back.
-/
namespace FDemo.Libhv

inductive Endian where
  | little
  | big
  deriving DecidableEq

/-- The memory of a `uint32_t` on a little-endian host. -/
def hostBytes (v : UInt32) : Bytes := [v.toUInt8,(v >>> 8).toUInt8,(v >>> 16).toUInt8,(v >>> 24).toUInt8]

def serialize (value : UInt32) (hostEndian : Endian := .little) (bufEndian : Endian := .big) : Bytes :=
  if hostEndian = bufEndian then hostBytes value else (hostBytes value).reverse

/-- `body_len = (body_len << 8) | *lp++`. -/
def pushByte (n : UInt32) (b : UInt8) : UInt32 := n <<< 8 ||| b.toUInt32

def readBigEndian (bs : Bytes) : UInt32 := bs.foldl pushByte 0

/-- `body_len |= *lp++ << (i * 8)`. -/
def readLittleEndian (bs : Bytes) : UInt32 :=
  bs.zipIdx.foldl (fun n b => n ||| b.1.toUInt32 <<< UInt32.ofNat (b.2 * 8)) 0

@[simp] theorem length_serialize (v : UInt32) (host buf : Endian) : (serialize v host buf).length = 4 := by
  unfold serialize
  split <;> simp [hostBytes]

theorem toNat_pushByte (n : UInt32) (b : UInt8) : (pushByte n b).toNat = n.toNat % 2 ^ 24 * 2 ^ 8 + b.toNat := by
  have hb : b.toNat < 2 ^ 8 := b.toNat_lt
  have hshift : n.toNat <<< 8 % 2 ^ 32 = (n.toNat % 2 ^ 24) <<< 8 := by
    simp only [Nat.shiftLeft_eq]
    omega
  have hor := Nat.shiftLeft_add_eq_or_of_lt hb (n.toNat % 2 ^ 24)
  simp only [pushByte,UInt32.toNat_or,UInt32.toNat_shiftLeft,UInt8.toNat_toUInt32]
  rw [show (8 : UInt32).toNat % 32 = 8 from rfl,hshift,← hor,Nat.shiftLeft_eq]

theorem readBigEndian_serialize (v : UInt32) : readBigEndian (serialize v) = v := by
  apply UInt32.toNat_inj.mp
  have hv := v.toNat_lt
  have hbyte : ∀ k : ℕ, k < 32 → (v >>> UInt32.ofNat k).toUInt8.toNat = v.toNat / 2 ^ k % 2 ^ 8 := by
    intro k hk
    simp [UInt32.toNat_toUInt8,UInt32.toNat_shiftRight,Nat.shiftRight_eq_div_pow,Nat.mod_eq_of_lt hk]
  have h8 : (v >>> 8).toUInt8.toNat = v.toNat / 2 ^ 8 % 2 ^ 8 := hbyte 8 (by decide)
  have h16 : (v >>> 16).toUInt8.toNat = v.toNat / 2 ^ 16 % 2 ^ 8 := hbyte 16 (by decide)
  have h24 : (v >>> 24).toUInt8.toNat = v.toNat / 2 ^ 24 % 2 ^ 8 := hbyte 24 (by decide)
  simp only [readBigEndian,serialize,hostBytes,reduceCtorEq,↓reduceIte,List.reverse_cons,List.reverse_nil,
    List.nil_append,List.cons_append,List.foldl_cons,List.foldl_nil,toNat_pushByte,UInt32.toNat_zero,
    UInt32.toNat_toUInt8,h8,h16,h24]
  omega

end FDemo.Libhv
