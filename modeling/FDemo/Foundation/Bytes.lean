import Mathlib.Algebra.Order.Ring.Int
import Mathlib.Data.Finmap
import Mathlib.Data.Finset.Sort
import Mathlib.Data.FinEnum

/-! # Byte strings, UTF-8 and 32-bit integers

A `std::string` and a `std::vector<char>` are both lists of bytes. Structural
UTF-8 validity is a finite automaton over the bytes, so that validity of a
concatenation follows from the run of the automaton alone. A signed 32-bit
integer is ordered by its value and converts to `size_t` modulo `2 ^ 64`.
-/
namespace FDemo

abbrev Bytes := List UInt8

def utf8 (s : String) : Bytes := s.toUTF8.data.toList

/-- The automaton between two bytes: continuation bytes still owed and the range of the next one. -/
structure Utf8State where
  owed : ℕ
  low : UInt8
  high : UInt8
  deriving DecidableEq

namespace Utf8State

def start : Utf8State := ⟨0,0x80,0xBF⟩

/-- The state after the first byte of a character; overlong forms, surrogates and code points above
`U+10FFFF` have no state. -/
def lead (b : UInt8) : Option Utf8State :=
  if b < 0x80 then some start
  else if b < 0xC2 then none
  else if b < 0xE0 then some ⟨1,0x80,0xBF⟩
  else if b = 0xE0 then some ⟨2,0xA0,0xBF⟩
  else if b = 0xED then some ⟨2,0x80,0x9F⟩
  else if b < 0xF0 then some ⟨2,0x80,0xBF⟩
  else if b = 0xF0 then some ⟨3,0x90,0xBF⟩
  else if b < 0xF4 then some ⟨3,0x80,0xBF⟩
  else if b = 0xF4 then some ⟨3,0x80,0x8F⟩
  else none

def step (s : Utf8State) (b : UInt8) : Option Utf8State :=
  if s.owed = 0 then lead b
  else if s.low ≤ b ∧ b ≤ s.high then some ⟨s.owed - 1,0x80,0xBF⟩
  else none

end Utf8State

/-- `IsStructurallyValidUTF8`: the automaton ends between characters. -/
def ValidUtf8 (bs : Bytes) : Prop := bs.foldlM Utf8State.step Utf8State.start = some Utf8State.start

instance (bs : Bytes) : Decidable (ValidUtf8 bs) := inferInstanceAs (Decidable (_ = _))

@[simp] theorem validUtf8_nil : ValidUtf8 [] := rfl

theorem ValidUtf8.append {xs ys : Bytes} (hx : ValidUtf8 xs) (hy : ValidUtf8 ys) : ValidUtf8 (xs ++ ys) := by
  unfold ValidUtf8 at *
  rw [List.foldlM_append, hx]
  exact hy

theorem ValidUtf8.of_append_left {xs ys : Bytes} (hx : ValidUtf8 xs) (h : ValidUtf8 (xs ++ ys)) :
    ValidUtf8 ys := by
  unfold ValidUtf8 at *
  rw [List.foldlM_append, hx] at h
  exact h

/-- `int` is ordered by value. -/
instance linearOrderInt32 : LinearOrder Int32 where
  le_refl a := Int32.le_iff_toInt_le.mpr le_rfl
  le_trans a b c hab hbc :=
    Int32.le_iff_toInt_le.mpr ((Int32.le_iff_toInt_le.mp hab).trans (Int32.le_iff_toInt_le.mp hbc))
  le_antisymm a b hab hba :=
    Int32.toInt_inj.mp (le_antisymm (Int32.le_iff_toInt_le.mp hab) (Int32.le_iff_toInt_le.mp hba))
  le_total a b := by
    simp only [Int32.le_iff_toInt_le]
    exact le_total _ _
  lt_iff_le_not_ge a b := by
    simp only [Int32.le_iff_toInt_le, Int32.lt_iff_toInt_lt]
    exact lt_iff_le_not_ge
  toDecidableLE := inferInstance

/-- The conversion of an `int` to `size_t`: a negative value wraps to a huge one. -/
def sizeOfInt (n : Int32) : ℕ := (n.toInt % 2 ^ 64).toNat

theorem sizeOfInt_of_nonneg {n : Int32} (h : 0 ≤ n.toInt) : sizeOfInt n = n.toInt.toNat := by
  have hlt := n.toInt_lt
  unfold sizeOfInt
  omega

theorem toInt_ofNat_of_lt_toInt {n : Int32} {i : ℕ} (h : (i : ℤ) < n.toInt) :
    (Int32.ofNat i).toInt = i :=
  Int32.toInt_ofNat_of_lt (by have := n.toInt_lt; omega)

end FDemo
