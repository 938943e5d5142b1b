import Mathlib.Data.List.Nodup
import Mathlib.Logic.Equiv.Basic
import Mathlib.Order.Lattice

/-! # Complete binary trees in level order

The nodes of a complete binary tree are a list. They are numbered from 1, so that
node `m` has the parent `m / 2` and the children `2 * m` and `2 * m + 1`; a number
that is no node's stands for a missing neighbour. A tree in heap order but for the
edges of one node comes into order when that node is exchanged downwards with its
least child, or upwards with its parent, as long as needed.
-/
namespace FDemo.LevelOrder
variable {α β : Type*}

def slot (xs : List α) : ℕ → Option α
  | 0 => none
  | m + 1 => xs[m]?

@[simp] theorem slot_zero (xs : List α) : slot xs 0 = none := rfl
theorem slot_succ (xs : List α) (m : ℕ) : slot xs (m + 1) = xs[m]? := rfl

theorem slot_nil {m : ℕ} {a : α} : slot [] m ≠ some a := by
  cases m <;> rintro ⟨⟩

theorem slot_eq_getElem? {xs : List α} {m : ℕ} (h : 0 < m) : slot xs m = xs[m - 1]? := by
  cases m with
  | zero => exact absurd h (Nat.lt_irrefl 0)
  | succ m => rfl

theorem bounds_of_slot {xs : List α} {m : ℕ} {a : α} (h : slot xs m = some a) : 0 < m ∧ m ≤ xs.length := by
  cases m with
  | zero => simp at h
  | succ m => exact ⟨Nat.succ_pos m,(List.getElem?_eq_some_iff.mp h).1⟩

theorem slot_eq_none_iff {xs : List α} {m : ℕ} : slot xs m = none ↔ m = 0 ∨ xs.length < m := by
  cases m with
  | zero => simp
  | succ m =>
    rw [slot_succ,List.getElem?_eq_none_iff]
    omega

theorem exists_slot {xs : List α} {m : ℕ} (hpos : 0 < m) (hle : m ≤ xs.length) : ∃ a, slot xs m = some a :=
  Option.ne_none_iff_exists'.mp fun h => by
    rw [slot_eq_none_iff] at h
    omega

theorem mem_iff_slot {xs : List α} {a : α} : a ∈ xs ↔ ∃ m, slot xs m = some a := by
  constructor
  · intro h
    obtain ⟨m,hm⟩ := List.mem_iff_getElem?.mp h
    exact ⟨m + 1,hm⟩
  · rintro ⟨m,hm⟩
    rw [slot_eq_getElem? (bounds_of_slot hm).1] at hm
    exact List.mem_of_getElem? hm

theorem slot_inj {xs : List α} (hnodup : xs.Nodup) {i j : ℕ} {a : α} (hi : slot xs i = some a)
    (hj : slot xs j = some a) : i = j := by
  have hibounds := bounds_of_slot hi
  have hjbounds := bounds_of_slot hj
  rw [slot_eq_getElem? hibounds.1] at hi
  rw [slot_eq_getElem? hjbounds.1] at hj
  have heq := (List.getElem?_inj (by omega) hnodup).mp (hi.trans hj.symm)
  omega

theorem slot_append {xs ys : List α} {m : ℕ} (h : m ≤ xs.length) : slot (xs ++ ys) m = slot xs m := by
  cases m with
  | zero => rfl
  | succ m => exact List.getElem?_append_left h

theorem slot_ext {xs ys : List α} (h : ∀ m, slot xs m = slot ys m) : xs = ys :=
  List.ext_getElem? fun i => h (i + 1)

theorem slot_concat (xs : List α) (a : α) (m : ℕ) :
    slot (xs ++ [a]) m = if m = xs.length + 1 then some a else slot xs m := by
  split_ifs with h
  · rw [h,slot_succ,List.getElem?_concat_length]
  · by_cases hle : m ≤ xs.length
    · exact slot_append hle
    · rw [slot_eq_none_iff.mpr,slot_eq_none_iff.mpr]
      · omega
      · simp
        omega

/-- A node of the longer tree is the new one or one from before. -/
theorem slot_concat_cases {xs : List α} {a b : α} (ha : a ∉ xs) {k : ℕ} (hb : slot (xs ++ [a]) k = some b) :
    k = xs.length + 1 ∧ b = a ∨ k ≤ xs.length ∧ slot xs k = some b ∧ b ≠ a := by
  rw [slot_concat] at hb
  split_ifs at hb with hk
  · exact .inl ⟨hk,(Option.some.inj hb).symm⟩
  · exact .inr ⟨(bounds_of_slot hb).2,hb,fun h => ha (h ▸ mem_iff_slot.mpr ⟨k,hb⟩)⟩

theorem slot_set {xs : List α} {m : ℕ} {a : α} (h : slot xs m = some a) (b : α) (k : ℕ) :
    slot (xs.set (m - 1) b) k = if k = m then some b else slot xs k := by
  have hbounds := bounds_of_slot h
  cases k with
  | zero =>
    rw [if_neg (by omega)]
    rfl
  | succ k =>
    rw [slot_succ,slot_succ,List.getElem?_set]
    by_cases hk : k + 1 = m
    · rw [if_pos hk,if_pos (by omega),if_pos (by omega)]
    · rw [if_neg hk,if_neg (by omega)]

/-- A node of the changed tree is the new one or one that stayed. -/
theorem slot_set_cases {xs : List α} {m k : ℕ} {a b l : α} (hnodup : xs.Nodup) (ha : slot xs m = some a)
    (hl : l ∉ xs) (hb : slot (xs.set (m - 1) l) k = some b) :
    k = m ∧ b = l ∨ k ≠ m ∧ slot xs k = some b ∧ b ≠ l ∧ b ≠ a := by
  rw [slot_set ha] at hb
  split_ifs at hb with hk
  · exact .inl ⟨hk,(Option.some.inj hb).symm⟩
  · refine .inr ⟨hk,hb,?_,?_⟩
    · rintro rfl
      exact hl (mem_iff_slot.mpr ⟨k,hb⟩)
    · rintro rfl
      exact hk (slot_inj hnodup hb ha)

theorem slot_dropLast (xs : List α) (k : ℕ) : slot xs.dropLast k = if k < xs.length then slot xs k else none := by
  cases k with
  | zero => split <;> rfl
  | succ k =>
    rw [slot_succ,slot_succ,List.getElem?_dropLast]
    split_ifs <;> first | rfl | omega

/-- The tree with the nodes at `i` and `j` exchanged. -/
def exchange (xs : List α) (i j : ℕ) : List α :=
  match slot xs i, slot xs j with
  | some a, some b => (xs.set (i - 1) b).set (j - 1) a
  | _, _ => xs

section Exchange
variable {xs : List α} {i j : ℕ} {a b : α}

theorem exchange_eq (hi : slot xs i = some a) (hj : slot xs j = some b) :
    exchange xs i j = (xs.set (i - 1) b).set (j - 1) a := by
  rw [exchange,hi,hj]

theorem exchange_perm (hi : slot xs i = some a) (hj : slot xs j = some b) : (exchange xs i j).Perm xs := by
  have hibounds := bounds_of_slot hi
  have hjbounds := bounds_of_slot hj
  rw [exchange_eq hi hj]
  rw [slot_eq_getElem? hibounds.1] at hi
  rw [slot_eq_getElem? hjbounds.1] at hj
  obtain ⟨hilt,rfl⟩ := List.getElem?_eq_some_iff.mp hi
  obtain ⟨hjlt,rfl⟩ := List.getElem?_eq_some_iff.mp hj
  exact List.set_set_perm hilt hjlt

theorem slot_exchange (hi : slot xs i = some a) (hj : slot xs j = some b) (k : ℕ) :
    slot (exchange xs i j) k = if k = j then some a else if k = i then some b else slot xs k := by
  have hibounds := bounds_of_slot hi
  have hjbounds := bounds_of_slot hj
  rw [exchange_eq hi hj]
  cases k with
  | zero =>
    rw [if_neg (by omega),if_neg (by omega)]
    rfl
  | succ k =>
    rw [slot_succ,slot_succ,List.getElem?_set,List.length_set]
    by_cases hkj : k + 1 = j
    · rw [if_pos hkj,if_pos (by omega),if_pos (by omega)]
    · rw [if_neg hkj,if_neg (by omega),List.getElem?_set]
      by_cases hki : k + 1 = i
      · rw [if_pos hki,if_pos (by omega),if_pos (by omega)]
      · rw [if_neg hki,if_neg (by omega)]

/-- A node of the exchanged tree is one of the two or one that stayed. -/
theorem slot_exchange_cases (hnodup : xs.Nodup) (hi : slot xs i = some a) (hj : slot xs j = some b) {k : ℕ} {c : α}
    (hc : slot (exchange xs i j) k = some c) :
    k = j ∧ c = a ∨ k = i ∧ c = b ∨ k ≠ j ∧ k ≠ i ∧ slot xs k = some c ∧ c ≠ a ∧ c ≠ b := by
  rw [slot_exchange hi hj] at hc
  split_ifs at hc with hkj hki
  · exact .inl ⟨hkj,(Option.some.inj hc).symm⟩
  · exact .inr (.inl ⟨hki,(Option.some.inj hc).symm⟩)
  · refine .inr (.inr ⟨hkj,hki,hc,?_,?_⟩)
    · rintro rfl
      exact hki (slot_inj hnodup hc hi)
    · rintro rfl
      exact hkj (slot_inj hnodup hc hj)

end Exchange

/-- The tree without the node at `m`: the last node has its place. -/
def removeSlot (xs : List α) (m : ℕ) : List α := (exchange xs m xs.length).dropLast

section Remove
variable {xs : List α} {m : ℕ} {a l : α}

theorem length_exchange (hm : slot xs m = some a) (hl : slot xs xs.length = some l) :
    (exchange xs m xs.length).length = xs.length := (exchange_perm hm hl).length_eq

theorem slot_removeSlot (hm : slot xs m = some a) (hl : slot xs xs.length = some l) (k : ℕ) :
    slot (removeSlot xs m) k = if k < xs.length then if k = m then some l else slot xs k else none := by
  rw [removeSlot,slot_dropLast,length_exchange hm hl]
  by_cases hk : k < xs.length
  · rw [if_pos hk,if_pos hk,slot_exchange hm hl,if_neg (by omega)]
  · rw [if_neg hk,if_neg hk]

theorem removeSlot_perm (hm : slot xs m = some a) (hl : slot xs xs.length = some l) :
    (a :: removeSlot xs m).Perm xs := by
  have hpos := (bounds_of_slot hl).1
  have hlen := length_exchange hm hl
  have hlast : (exchange xs m xs.length)[(exchange xs m xs.length).length - 1]? = some a := by
    have hslot := slot_exchange hm hl xs.length
    rw [if_pos rfl,slot_eq_getElem? hpos] at hslot
    rw [hlen,hslot]
  have hconcat : removeSlot xs m ++ [a] = exchange xs m xs.length :=
    List.dropLast_append_getLast? a (by rw [List.getLast?_eq_getElem?]; exact hlast)
  exact (List.perm_append_singleton a _).symm.trans (hconcat ▸ exchange_perm hm hl)

theorem removeSlot_eq_set (hm : slot xs m = some a) (hl : slot xs xs.length = some l) (hlt : m < xs.length) :
    removeSlot xs m = xs.dropLast.set (m - 1) l := by
  have hm' : slot xs.dropLast m = some a := by rw [slot_dropLast,if_pos hlt,hm]
  refine slot_ext fun k => ?_
  rw [slot_removeSlot hm hl,slot_set hm',slot_dropLast]
  split_ifs <;> first | rfl | omega

theorem removeSlot_last (hl : slot xs xs.length = some l) : removeSlot xs xs.length = xs.dropLast := by
  refine slot_ext fun k => ?_
  rw [slot_removeSlot hl hl,slot_dropLast]
  split_ifs <;> first | rfl | omega

end Remove

section Order
variable [LinearOrder β] (key : α → β)

/-- No node comes before its parent. -/
def Ordered (xs : List α) : Prop :=
  ∀ m a p, slot xs m = some a → slot xs (m / 2) = some p → key p ≤ key a

/-- The order of a tree in which the node at `m` may be out of order with its neighbours. -/
structure OrderedBut (xs : List α) (m : ℕ) : Prop where
  off : ∀ i a p, i ≠ m → i / 2 ≠ m → slot xs i = some a → slot xs (i / 2) = some p → key p ≤ key a
  across : ∀ i a p, i / 2 = m → slot xs i = some a → slot xs (m / 2) = some p → key p ≤ key a

/-- The node at `m` does not come after its children. -/
def BeforeChildren (xs : List α) (m : ℕ) : Prop :=
  ∀ i a v, i / 2 = m → slot xs i = some a → slot xs m = some v → key v ≤ key a

/-- The node at `m` does not come before its parent. -/
def AfterParent (xs : List α) (m : ℕ) : Prop :=
  ∀ p v, slot xs (m / 2) = some p → slot xs m = some v → key p ≤ key v

variable {key} {xs : List α} {m : ℕ}

theorem OrderedBut.ordered (h : OrderedBut key xs m) (hchildren : BeforeChildren key xs m)
    (hparent : AfterParent key xs m) : Ordered key xs := by
  intro i a p ha hp
  by_cases him : i = m
  · subst him
    exact hparent p a hp ha
  · by_cases hpm : i / 2 = m
    · exact hchildren i a p hpm ha (hpm ▸ hp)
    · exact h.off i a p him hpm ha hp

/-- A child that comes after no other child takes the place of its parent. -/
theorem OrderedBut.down (h : OrderedBut key xs m) {c : ℕ} {v e : α} (hv : slot xs m = some v) (he : slot xs c = some e)
    (hc : c / 2 = m) (hleast : ∀ i a, i / 2 = m → slot xs i = some a → key e ≤ key a) :
    OrderedBut key (exchange xs m c) c := by
  have hm := (bounds_of_slot hv).1
  have hslot := slot_exchange hv he
  constructor
  · intro i a p hic hpc ha hp
    rw [hslot,if_neg hic] at ha
    rw [hslot,if_neg hpc] at hp
    by_cases him : i = m
    · rw [if_pos him] at ha
      rw [if_neg (by omega)] at hp
      obtain rfl := Option.some.inj ha
      exact h.across c e p hc he (him ▸ hp)
    · rw [if_neg him] at ha
      by_cases hpm : i / 2 = m
      · rw [if_pos hpm] at hp
        obtain rfl := Option.some.inj hp
        exact hleast i a hpm ha
      · rw [if_neg hpm] at hp
        exact h.off i a p him hpm ha hp
  · intro i a p hic ha hp
    rw [hslot,if_neg (by omega),if_neg (by omega)] at ha
    rw [hslot,if_neg (by omega),if_pos hc] at hp
    obtain rfl := Option.some.inj hp
    exact h.off i a e (by omega) (by omega) ha (hic ▸ he)

/-- A node that comes before its parent takes its place. -/
theorem OrderedBut.up (h : OrderedBut key xs m) {v p : α} (hv : slot xs m = some v) (hp : slot xs (m / 2) = some p)
    (hlt : key v ≤ key p) :
    OrderedBut key (exchange xs (m / 2) m) (m / 2) ∧ BeforeChildren key (exchange xs (m / 2) m) (m / 2) := by
  have hm := (bounds_of_slot hp).1
  have hslot := slot_exchange hp hv
  have hsibling : ∀ i a, i ≠ m → i / 2 = m / 2 → slot xs i = some a → key p ≤ key a := by
    intro i a him hi ha
    exact h.off i a p him (by omega) ha (hi ▸ hp)
  refine ⟨⟨?_,?_⟩,?_⟩
  · intro i a q hip hqp ha hq
    rw [hslot,if_neg (by omega),if_neg hip] at ha
    rw [hslot,if_neg hqp] at hq
    by_cases hqm : i / 2 = m
    · rw [if_pos hqm] at hq
      obtain rfl := Option.some.inj hq
      exact h.across i a p hqm ha hp
    · rw [if_neg hqm] at hq
      exact h.off i a q (by omega) hqm ha hq
  · intro i a q hi ha hq
    rw [hslot,if_neg (by omega),if_neg (by omega)] at hq
    have hqp := h.off (m / 2) p q (by omega) (by omega) hp hq
    rw [hslot] at ha
    by_cases him : i = m
    · rw [if_pos him] at ha
      obtain rfl := Option.some.inj ha
      exact hqp
    · rw [if_neg him,if_neg (by omega)] at ha
      exact hqp.trans (hsibling i a him hi ha)
  · intro i a u hi ha hu
    rw [hslot,if_neg (by omega),if_pos rfl] at hu
    obtain rfl := Option.some.inj hu
    rw [hslot] at ha
    by_cases him : i = m
    · rw [if_pos him] at ha
      obtain rfl := Option.some.inj ha
      exact hlt
    · rw [if_neg him,if_neg (by omega)] at ha
      exact hlt.trans (hsibling i a him hi ha)

theorem Ordered.append (h : Ordered key xs) (a : α) :
    OrderedBut key (xs ++ [a]) (xs.length + 1) ∧ BeforeChildren key (xs ++ [a]) (xs.length + 1) := by
  have hbound : ∀ {i b}, slot (xs ++ [a]) i = some b → i ≤ xs.length + 1 := by
    intro i b hb
    simpa using (bounds_of_slot hb).2
  refine ⟨⟨?_,?_⟩,?_⟩
  · intro i b p hi hp hb hp'
    have hle := hbound hb
    rw [slot_append (by omega)] at hb hp'
    exact h i b p hb hp'
  · intro i b p hi hb _
    have hle := hbound hb
    omega
  · intro i b v hi hb _
    have hle := hbound hb
    omega

theorem Ordered.removeSlot (h : Ordered key xs) {a l : α} (hm : slot xs m = some a) (hl : slot xs xs.length = some l) :
    OrderedBut key (removeSlot xs m) m := by
  have hkept : ∀ {i b}, i ≠ m → slot (LevelOrder.removeSlot xs m) i = some b → slot xs i = some b := by
    intro i b hi hb
    rw [slot_removeSlot hm hl,if_neg hi] at hb
    split at hb
    · exact hb
    · cases hb
  have hpos := (bounds_of_slot hm).1
  constructor
  · intro i b p hi hp hb hp'
    exact h i b p (hkept hi hb) (hkept hp hp')
  · intro i b p hi hb hp
    exact (h m a p hm (hkept (by omega) hp)).trans (h i b a (hkept (by omega) hb) (hi ▸ hm))

/-- The root comes first. -/
theorem Ordered.root_le (h : Ordered key xs) {r a : α} (hr : slot xs 1 = some r) (ha : a ∈ xs) : key r ≤ key a := by
  obtain ⟨m,hm⟩ := mem_iff_slot.mp ha
  induction m using Nat.strongRecOn generalizing a with
  | _ m ih =>
    have hbounds := bounds_of_slot hm
    by_cases hroot : m = 1
    · subst hroot
      rw [hr] at hm
      obtain rfl := Option.some.inj hm
      exact le_refl _
    · obtain ⟨p,hp⟩ := exists_slot (show 0 < m / 2 by omega) (show m / 2 ≤ xs.length by omega)
      exact (ih (m / 2) (by omega) (mem_iff_slot.mpr ⟨_,hp⟩) hp).trans (h m a p hm hp)

end Order
end FDemo.LevelOrder
