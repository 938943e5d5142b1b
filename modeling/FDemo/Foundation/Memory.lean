import Mathlib.Data.List.Basic

/-! # A block of memory with checked accesses

A block is the list of its cells. An access that leaves the block has no result,
so that a program which computes a result is a program that stays inside.
-/
namespace FDemo
variable {β : Type*} {m : List β} {i n : ℕ} {xs bs : List β}

/-- The `n` cells from `i` on. -/
def load (m : List β) (i n : ℕ) : Option (List β) :=
  if i + n ≤ m.length then some ((m.drop i).take n) else none

/-- Overwrites the cells from `i` on. -/
def store (m : List β) (i : ℕ) (bs : List β) : Option (List β) :=
  if i + bs.length ≤ m.length then some (m.take i ++ bs ++ m.drop (i + bs.length)) else none

def memmove (m : List β) (dst src n : ℕ) : Option (List β) := do
  let bs ← load m src n
  store m dst bs

/-- A block of another size: the cells both have are kept, new ones are cleared. -/
def realloc (zero : β) (m : List β) (n : ℕ) : List β := m.take n ++ List.replicate (n - m.length) zero

@[simp] theorem length_realloc (zero : β) (m : List β) (n : ℕ) : (realloc zero m n).length = n := by
  simp only [realloc,List.length_append,List.length_take,List.length_replicate]
  omega

theorem prefix_realloc (zero : β) (h : xs <+: m) (hn : xs.length ≤ n) : xs <+: realloc zero m n := by
  have htake : xs <+: m.take n := List.prefix_take_iff.mpr ⟨h,hn⟩
  exact htake.trans (List.prefix_append _ _)

/-- Cells inside the contents that a block begins with. -/
theorem load_inside (h : xs <+: m) (i n : ℕ) (hin : i + n ≤ xs.length) : load m i n = some ((xs.drop i).take n) := by
  obtain ⟨ys,rfl⟩ := h
  rw [load,if_pos (by rw [List.length_append]; omega),List.drop_append_of_le_length (by omega),
    List.take_append_of_le_length (by rw [List.length_drop]; omega)]

/-- Storing behind the contents extends them. -/
theorem store_prefix (h : xs <+: m) (hroom : xs.length + bs.length ≤ m.length) :
    ∃ m', store m xs.length bs = some m' ∧ m'.length = m.length ∧ xs ++ bs <+: m' := by
  obtain ⟨ys,rfl⟩ := h
  refine ⟨_,if_pos hroom,?_,?_⟩
  · simp only [List.length_append,List.length_take,List.length_drop] at hroom ⊢
    omega
  · rw [List.take_left]
    exact List.prefix_append _ _

/-- Moving the rest of the contents to the front drops what stood before it. -/
theorem memmove_prefix (h : xs <+: m) (hi : i ≤ xs.length) : ∃ m', memmove m 0 i (xs.length - i) = some m' ∧
    m'.length = m.length ∧ xs.drop i <+: m' := by
  have hload : load m i (xs.length - i) = some (xs.drop i) := by
    rw [load_inside h i (xs.length - i) (by omega),List.take_of_length_le (by simp)]
  have hroom : ([] : List β).length + (xs.drop i).length ≤ m.length := by
    have := h.length_le
    simp only [List.length_nil,List.length_drop]
    omega
  obtain ⟨m',hstore,hm',hpre⟩ := store_prefix (List.nil_prefix (l := m)) hroom
  exact ⟨m',by simpa [memmove,hload] using hstore,hm',by simpa using hpre⟩

end FDemo
