import FDemo.Libhv.HeapOrder
import Mathlib.Data.Finset.Card
import Mathlib.Data.List.Perm.Basic

/-! # Runs of the heap

A heap holds a set of nodes by their keys. The nodes come in by `heap_insert`, with
a key that stays as long as they are in, and go out by `heap_remove` or, the first
of them, by `heap_dequeue`.
-/
namespace FDemo.Libhv
open LevelOrder
variable {ι β : Type*} [DecidableEq ι] [LinearOrder β]

namespace Heap

/-- The pointers lay out the nodes as a complete tree in which no node comes before its parent. -/
def Holds (key : ι → β) (h : Heap ι) (held : Finset ι) : Prop :=
  ∃ xs, Tree h xs ∧ Ordered key xs ∧ xs.toFinset = held

theorem Holds.empty (key : ι → β) : Holds key {} ∅ :=
  ⟨[],⟨rfl,rfl,fun h => absurd h slot_nil,fun h => absurd h slot_nil,fun h => absurd h slot_nil,List.nodup_nil,
    fun _ => ⟨rfl,rfl⟩⟩,fun _ _ _ h => absurd h slot_nil,rfl⟩

section
variable {key key' : ι → β} {h : Heap ι} {held : Finset ι} {v w : ι}

theorem Holds.congr (hh : Holds key h held) (hkey : ∀ w ∈ held, key' w = key w) : Holds key' h held := by
  obtain ⟨xs,hT,ho,rfl⟩ := hh
  have hmem : ∀ {m a}, slot xs m = some a → key' a = key a :=
    fun ha => hkey _ (List.mem_toFinset.mpr (mem_iff_slot.mpr ⟨_,ha⟩))
  refine ⟨xs,hT,fun m a p ha hp => ?_,rfl⟩
  rw [hmem ha,hmem hp]
  exact ho m a p ha hp

theorem Holds.clear (hh : Holds key h held) (hv : v ∉ held) : Holds key (h.clear v) held := by
  obtain ⟨xs,hT,ho,rfl⟩ := hh
  exact ⟨xs,hT.clear fun h => hv (List.mem_toFinset.mpr h),ho,rfl⟩

theorem Holds.nelts (hh : Holds key h held) : h.nelts = held.card := by
  obtain ⟨xs,hT,-,rfl⟩ := hh
  rw [hT.nelts,List.toFinset_card_of_nodup hT.nodup]

theorem Holds.insert (hh : Holds key h held) (hv : v ∉ held) :
    ∃ h', h.insert (before key) v = some h' ∧ Holds key h' (Insert.insert v held) := by
  obtain ⟨xs,hT,ho,rfl⟩ := hh
  obtain ⟨h',xs',hs,hT',hperm,ho'⟩ := hT.insert ho fun h => hv (List.mem_toFinset.mpr h)
  exact ⟨h',hs,xs',hT',ho',by rw [List.toFinset_eq_of_perm _ _ hperm,List.toFinset_cons]⟩

theorem Holds.remove (hh : Holds key h held) (hv : v ∈ held) :
    ∃ h', h.remove (before key) v = some h' ∧ Holds key h' (held.erase v) := by
  obtain ⟨xs,hT,ho,rfl⟩ := hh
  obtain ⟨h',xs',hs,hT',hperm,ho'⟩ := hT.remove ho (List.mem_toFinset.mp hv)
  refine ⟨h',hs,xs',hT',ho',?_⟩
  have hnotin : v ∉ xs' := (List.nodup_cons.mp (hperm.nodup_iff.mpr hT.nodup)).1
  rw [← List.toFinset_eq_of_perm _ _ hperm,List.toFinset_cons,
    Finset.erase_insert (fun h => hnotin (List.mem_toFinset.mp h))]

theorem Holds.root_eq_none (hh : Holds key h held) : h.root = none ↔ held = ∅ := by
  obtain ⟨xs,hT,-,rfl⟩ := hh
  rw [hT.root,slot_eq_none_iff,List.toFinset_eq_empty_iff,← List.length_eq_zero_iff]
  omega

theorem Holds.root_mem (hh : Holds key h held) (hv : h.root = some v) : v ∈ held := by
  obtain ⟨xs,hT,-,rfl⟩ := hh
  exact List.mem_toFinset.mpr (mem_iff_slot.mpr ⟨1,hT.root ▸ hv⟩)

theorem Holds.root_le (hh : Holds key h held) (hv : h.root = some v) (hw : w ∈ held) : key v ≤ key w := by
  obtain ⟨xs,hT,ho,rfl⟩ := hh
  exact ho.root_le (hT.root ▸ hv) (List.mem_toFinset.mp hw)

end

/-- A heap with the keys of the nodes. -/
structure Keyed (ι β : Type*) where
  heap : Heap ι
  key : ι → β

namespace Keyed

def insert (s : Keyed ι β) (node : ι) (k : β) : Option (Keyed ι β) :=
  let key := Function.update s.key node k
  (s.heap.insert (before key) node).map fun h => ⟨h,key⟩

def remove (s : Keyed ι β) (node : ι) : Option (Keyed ι β) :=
  (s.heap.remove (before s.key) node).map fun h => ⟨h,s.key⟩

def dequeue (s : Keyed ι β) : Option (Keyed ι β) :=
  (s.heap.dequeue (before s.key)).map fun h => ⟨h,s.key⟩

/-- The heaps that an empty one becomes, with the nodes that are inserted and not yet taken out. -/
inductive Reachable : Keyed ι β → Finset ι → Prop
  | empty (key : ι → β) : Reachable ⟨{},key⟩ ∅
  | insert {s s' : Keyed ι β} {held : Finset ι} {node : ι} {k : β} (hs : Reachable s held) (hnode : node ∉ held)
      (h : s.insert node k = some s') : Reachable s' (Insert.insert node held)
  | remove {s s' : Keyed ι β} {held : Finset ι} {node : ι} (hs : Reachable s held) (hnode : node ∈ held)
      (h : s.remove node = some s') : Reachable s' (held.erase node)
  | dequeue {s s' : Keyed ι β} {held : Finset ι} {root : ι} (hs : Reachable s held) (hroot : s.heap.root = some root)
      (h : s.dequeue = some s') : Reachable s' (held.erase root)

variable {s : Keyed ι β} {held : Finset ι}

theorem holds_insert (hh : Holds s.key s.heap held) {node : ι} (hnode : node ∉ held) (k : β) :
    ∃ s', s.insert node k = some s' ∧ Holds s'.key s'.heap (Insert.insert node held) := by
  have hkey : ∀ w ∈ held, Function.update s.key node k w = s.key w :=
    fun w hw => Function.update_of_ne (ne_of_mem_of_not_mem hw hnode) _ _
  obtain ⟨h',hs,hh'⟩ := (hh.congr hkey).insert hnode
  exact ⟨⟨h',Function.update s.key node k⟩,by rw [insert,hs,Option.map_some],hh'⟩

theorem holds_remove (hh : Holds s.key s.heap held) {node : ι} (hnode : node ∈ held) :
    ∃ s', s.remove node = some s' ∧ Holds s'.key s'.heap (held.erase node) := by
  obtain ⟨h',hs,hh'⟩ := hh.remove hnode
  exact ⟨⟨h',s.key⟩,by rw [remove,hs,Option.map_some],hh'⟩

theorem dequeue_eq {root : ι} (hroot : s.heap.root = some root) : s.dequeue = s.remove root := by
  rw [dequeue,Heap.dequeue,hroot,remove]

theorem Reachable.holds (hs : Reachable s held) : Holds s.key s.heap held := by
  induction hs with
  | empty key => exact .empty key
  | insert hs hnode h ih =>
    obtain ⟨s',hs',hh⟩ := holds_insert ih hnode _
    exact Option.some.inj (hs'.symm.trans h) ▸ hh
  | remove hs hnode h ih =>
    obtain ⟨s',hs',hh⟩ := holds_remove ih hnode
    exact Option.some.inj (hs'.symm.trans h) ▸ hh
  | dequeue hs hroot h ih =>
    obtain ⟨s',hs',hh⟩ := holds_remove ih (ih.root_mem hroot)
    rw [dequeue_eq hroot] at h
    exact Option.some.inj (hs'.symm.trans h) ▸ hh

/-- Over every run the heap is a queue by priority, and no call goes wrong. -/
theorem Reachable.serves_least (hs : Reachable s held) :
    Holds s.key s.heap held ∧ s.heap.nelts = held.card ∧ (s.heap.root = none ↔ held = ∅) ∧
      (∀ root, s.heap.root = some root → root ∈ held ∧ ∀ w ∈ held, s.key root ≤ s.key w) ∧
      (∀ node k, node ∉ held → (s.insert node k).isSome) ∧ (∀ node ∈ held, (s.remove node).isSome) ∧
      s.dequeue.isSome := by
  have hh := hs.holds
  refine ⟨hh,hh.nelts,hh.root_eq_none,fun root hroot => ⟨hh.root_mem hroot,fun w hw => hh.root_le hroot hw⟩,
    fun node k hnode => ?_,fun node hnode => ?_,?_⟩
  · obtain ⟨s',hs',-⟩ := holds_insert hh hnode k
    rw [hs',Option.isSome_some]
  · obtain ⟨s',hs',-⟩ := holds_remove hh hnode
    rw [hs',Option.isSome_some]
  · cases hroot : s.heap.root with
    | none =>
      have hnelts : s.heap.nelts = 0 := by rw [hh.nelts,hh.root_eq_none.mp hroot,Finset.card_empty]
      rw [Keyed.dequeue,Heap.dequeue,hroot]
      simp [hnelts]
    | some root =>
      obtain ⟨s',hs',-⟩ := holds_remove hh (hh.root_mem hroot)
      rw [dequeue_eq hroot,hs',Option.isSome_some]

theorem serves_least_two : ∃ s : Keyed ℕ ℕ, s.heap.root = some 2 ∧ ∀ w ∈ ({1,2} : Finset ℕ), s.key 2 ≤ s.key w := by
  have hone := Reachable.insert (.empty fun _ => 0) (Finset.notMem_empty 2)
    (show Keyed.insert (ι := ℕ) (β := ℕ) _ 2 3 = some _ from rfl)
  have htwo := Reachable.insert hone (show 1 ∉ _ by decide) (show Keyed.insert _ 1 5 = some _ from rfl)
  exact ⟨_,rfl,(htwo.serves_least.2.2.2.1 2 rfl).2⟩

end Keyed
end Heap
end FDemo.Libhv
