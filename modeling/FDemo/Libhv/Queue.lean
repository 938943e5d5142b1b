import FDemo.Foundation.Memory

/-! # The queue of `base/queue.h`

`QUEUE_DECL` keeps the elements in a block behind `_offset`. A push compacts the
block when its end is reached and doubles it when it is full, a pop only moves
`_offset`. Whatever the block looks like, the queue holds the list of what was
pushed and not popped.
-/
namespace FDemo.Libhv

/-- `maxsize` is the size of the block. -/
structure Queue (α : Type*) where
  ptr : List α
  size : ℕ
  offset : ℕ
  deriving DecidableEq

namespace Queue
variable {α : Type*} (zero : α) (q : Queue α)

def initSize : ℕ := 16

def maxsize : ℕ := q.ptr.length

/-- `HV_ALLOC` clears the block. -/
def init (maxsize : ℕ) : Queue α := ⟨List.replicate maxsize zero,0,0⟩

/-- A zeroed `hio_t` has this queue as well. -/
def cleanup : Queue α := ⟨[],0,0⟩

def resize (maxsize : ℕ) : Queue α :=
  { q with ptr := realloc zero q.ptr (if maxsize = 0 then initSize else maxsize) }

def doubleResize : Queue α := q.resize zero (q.maxsize * 2)

/-- The pointer to the first element. -/
def front : Option ℕ := if q.size = 0 then none else some q.offset

/-- What a push does to get a cell behind the last element. -/
def makeRoom : Option (Queue α) :=
  if q.size = q.maxsize then some (q.doubleResize zero)
  else if q.offset + q.size = q.maxsize then
    (memmove q.ptr 0 q.offset q.size).map fun ptr => { q with ptr, offset := 0 }
  else some q

def pushBack (elem : α) : Option (Queue α) := do
  let q ← q.makeRoom zero
  let ptr ← store q.ptr (q.offset + q.size) [elem]
  return { q with ptr, size := q.size + 1 }

/-- No result when the `assert` fails. -/
def popFront : Option (Queue α) :=
  if q.size = 0 then none
  else some { q with size := q.size - 1, offset := if q.offset + 1 = q.maxsize then 0 else q.offset + 1 }

/-- The elements stand in their order behind the offset. -/
structure Holds (q : Queue α) (xs : List α) : Prop where
  size : q.size = xs.length
  cells : ∃ ys : List α, ys.length = q.offset ∧ ys ++ xs <+: q.ptr

variable {zero q} {x y : α} {xs : List α}

theorem holds_cleanup : (cleanup : Queue α).Holds [] := ⟨rfl,[],rfl,List.nil_prefix⟩

theorem holds_init (maxsize : ℕ) : (init zero maxsize).Holds [] := ⟨rfl,[],rfl,List.nil_prefix⟩

theorem Holds.room (h : q.Holds xs) : q.offset + xs.length ≤ q.maxsize := by
  obtain ⟨ys,hys,hcells⟩ := h.cells
  have := hcells.length_le
  rw [List.length_append] at this
  rw [← hys]
  exact this

theorem Holds.makeRoom (h : q.Holds xs) (zero : α) :
    ∃ q', q.makeRoom zero = some q' ∧ q'.Holds xs ∧ q'.offset + xs.length < q'.maxsize := by
  have hroom := h.room
  have hsize := h.size
  obtain ⟨ys,hys,hcells⟩ := h.cells
  by_cases hfull : q.size = q.maxsize
  · obtain rfl : ys = [] := List.length_eq_zero_iff.mp (by omega)
    have hlen : (q.doubleResize zero).maxsize = if q.maxsize * 2 = 0 then initSize else q.maxsize * 2 :=
      length_realloc _ _ _
    have hlt : xs.length < (q.doubleResize zero).maxsize := by
      have hinit : initSize = 16 := rfl
      rw [hlen]
      split <;> omega
    have hoffset : (q.doubleResize zero).offset = 0 := hys.symm
    refine ⟨_,if_pos hfull,⟨hsize,[],hys,prefix_realloc zero hcells (hlen ▸ Nat.le_of_lt hlt)⟩,?_⟩
    rwa [hoffset,Nat.zero_add]
  by_cases hend : q.offset + q.size = q.maxsize
  · obtain ⟨ptr,hmove,hlen,hpre⟩ := memmove_prefix hcells (show q.offset ≤ _ by simp [hys])
    have hcount : (ys ++ xs).length - q.offset = q.size := by
      rw [List.length_append,hys]
      omega
    have hdrop : (ys ++ xs).drop q.offset = xs := hys ▸ List.drop_left
    rw [hcount] at hmove
    rw [hdrop] at hpre
    refine ⟨{ q with ptr := ptr, offset := 0 },?_,⟨hsize,[],rfl,hpre⟩,?_⟩
    · rw [Queue.makeRoom,if_neg hfull,if_pos hend,hmove,Option.map_some]
    · have hptr : ptr.length = q.maxsize := hlen
      show 0 + xs.length < ptr.length
      omega
  · exact ⟨q,by rw [Queue.makeRoom,if_neg hfull,if_neg hend],h,by omega⟩

theorem Holds.pushBack (h : q.Holds xs) (zero x : α) :
    ∃ q', q.pushBack zero x = some q' ∧ q'.Holds (xs ++ [x]) := by
  obtain ⟨q₁,hroom,h₁,hlt⟩ := h.makeRoom zero
  obtain ⟨ys,hys,hcells⟩ := h₁.cells
  have hend : (ys ++ xs).length = q₁.offset + q₁.size := by rw [List.length_append,hys,h₁.size]
  obtain ⟨ptr,hstore,-,hpre⟩ := store_prefix hcells (show (ys ++ xs).length + [x].length ≤ q₁.ptr.length by
    rw [hend,h₁.size]
    exact hlt)
  rw [hend] at hstore
  refine ⟨{ q₁ with ptr := ptr, size := q₁.size + 1 },?_,by simp [h₁.size],ys,hys,?_⟩
  · simp only [Queue.pushBack,hroom,Option.bind_eq_bind,Option.bind_some,hstore,Option.pure_def]
  · rwa [← List.append_assoc]

theorem Holds.front_cons (h : q.Holds (x :: xs)) : q.front = some q.offset ∧ q.ptr[q.offset]? = some x := by
  obtain ⟨ys,hys,zs,hptr⟩ := h.cells
  refine ⟨by simp [front,h.size],?_⟩
  rw [← hptr,← hys]
  simp

theorem Holds.front_nil (h : q.Holds []) : q.front = none := by simp [front,h.size]

/-- The first element may be overwritten in its place. -/
theorem Holds.set (h : q.Holds (x :: xs)) (y : α) : Holds { q with ptr := q.ptr.set q.offset y } (y :: xs) := by
  obtain ⟨ys,hys,zs,hptr⟩ := h.cells
  refine ⟨h.size,ys,hys,zs,?_⟩
  simp [← hptr,← hys]

theorem Holds.popFront (h : q.Holds (x :: xs)) : ∃ q', q.popFront = some q' ∧ q'.Holds xs := by
  have hroom := h.room
  obtain ⟨ys,hys,hcells⟩ := h.cells
  have hsize : q.size = xs.length + 1 := h.size
  refine ⟨_,by rw [Queue.popFront,if_neg (by omega)],by simp [hsize],?_⟩
  by_cases hend : q.offset + 1 = q.maxsize
  · obtain rfl : xs = [] := List.length_eq_zero_iff.mp (by
      rw [List.length_cons] at hroom
      omega)
    exact ⟨[],by simp [hend],List.nil_prefix⟩
  · exact ⟨ys ++ [x],by simp [hend,hys],by simpa using hcells⟩

end Queue
end FDemo.Libhv
