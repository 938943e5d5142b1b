import FDemo.Libhv.HeapTree

/-! # The order of the heap

With a comparison of keys the sifting loops end, and they leave the nodes in heap
order. So `heap_insert` adds a node and `heap_remove` takes one out, whatever its
place, and the root has the least key.
-/
namespace FDemo.Libhv
open LevelOrder
variable {ι β : Type*} [DecidableEq ι] [LinearOrder β]

namespace Heap

/-- The comparison of two nodes by their keys. -/
def before (key : ι → β) (a b : ι) : Bool := decide (key a < key b)

omit [DecidableEq ι] in
theorem before_iff {key : ι → β} {a b : ι} : before key a b = true ↔ key a < key b := decide_eq_true_iff

variable {key : ι → β} {h : Heap ι} {xs : List ι} {m : ℕ} {v : ι}

theorem Tree.siftUp (fuel : ℕ) (hT : Tree h xs) (hv : slot xs m = some v) (ho : OrderedBut key xs m)
    (hc : BeforeChildren key xs m) (hfuel : m ≤ fuel + 1) :
    ∃ h' xs', h.siftUp (before key) fuel v = some h' ∧ Tree h' xs' ∧ xs'.Perm xs ∧ Ordered key xs' := by
  induction fuel generalizing h xs m with
  | zero =>
    have hroot : slot xs (m / 2) = none := by
      rw [show m / 2 = 0 by omega]
      rfl
    refine ⟨h,xs,?_,hT,.refl xs,ho.ordered hc fun p u hp => by simp [hroot] at hp⟩
    rw [Heap.siftUp,hT.parent hv,hroot]
  | succ fuel ih =>
    rw [Heap.siftUp,hT.parent hv]
    cases hp : slot xs (m / 2) with
    | none => exact ⟨h,xs,rfl,hT,.refl xs,ho.ordered hc fun p u hp' => by simp [hp] at hp'⟩
    | some p =>
      by_cases hlt : key v < key p
      · obtain ⟨h₁,hswap,hT₁⟩ := hT.swap hv hp
        obtain ⟨ho₁,hc₁⟩ := ho.up hv hp hlt.le
        have hv₁ : slot (exchange xs (m / 2) m) (m / 2) = some v := by
          have hpos := (bounds_of_slot hp).1
          rw [slot_exchange hp hv,if_neg (by omega),if_pos rfl]
        obtain ⟨h',xs',hs,hT',hperm,ho'⟩ := ih hT₁ hv₁ ho₁ hc₁ (by omega)
        refine ⟨h',xs',?_,hT',hperm.trans (exchange_perm hp hv),ho'⟩
        simp only [if_pos (before_iff.mpr hlt),hswap,Option.bind_some]
        exact hs
      · refine ⟨h,xs,?_,hT,.refl xs,ho.ordered hc fun q u hq hu => ?_⟩
        · simp only [if_neg (mt before_iff.mp hlt)]
        · rw [hp] at hq
          rw [hv] at hu
          obtain rfl := Option.some.inj hq
          obtain rfl := Option.some.inj hu
          exact not_lt.mp hlt

omit [DecidableEq ι] in
theorem smaller_spec (key : ι → β) (est : ι) (c : Option ι) :
    key (smaller (before key) est c) ≤ key est ∧ (∀ d, c = some d → key (smaller (before key) est c) ≤ key d) ∧
      (smaller (before key) est c = est ∨ c = some (smaller (before key) est c)) := by
  cases c with
  | none => exact ⟨le_rfl,by simp,.inl rfl⟩
  | some c =>
    rw [smaller]
    by_cases hlt : key est < key c
    · rw [if_pos (before_iff.mpr hlt)]
      exact ⟨le_rfl,fun d hd => Option.some.inj hd ▸ hlt.le,.inl rfl⟩
    · rw [if_neg (mt before_iff.mp hlt)]
      exact ⟨not_lt.mp hlt,fun d hd => Option.some.inj hd ▸ le_rfl,.inr rfl⟩

omit [DecidableEq ι] in
theorem least_spec (key : ι → β) (h : Heap ι) (v : ι) :
    (∀ c, h.left v = some c ∨ h.right v = some c → key (h.least (before key) v) ≤ key c) ∧
      (h.least (before key) v = v ∨ h.left v = some (h.least (before key) v) ∨
        h.right v = some (h.least (before key) v)) := by
  obtain ⟨-,hc₁,hor₁⟩ := smaller_spec key v (h.left v)
  obtain ⟨hle₂,hc₂,hor₂⟩ := smaller_spec key (smaller (before key) v (h.left v)) (h.right v)
  refine ⟨?_,?_⟩
  · rintro c (hc | hc)
    · exact hle₂.trans (hc₁ c hc)
    · exact hc₂ c hc
  · rcases hor₂ with heq | hright
    · rw [least,heq]
      exact hor₁.imp_right .inl
    · exact .inr (.inr hright)

omit [DecidableEq ι] in
/-- The node that the loop of `heap_remove` chooses: a child before the others, or the node itself when
it comes before its children. -/
theorem Tree.least_cases (hT : Tree h xs) (key : ι → β) (hv : slot xs m = some v) :
    h.least (before key) v = v ∧ BeforeChildren key xs m ∨
      ∃ c, c / 2 = m ∧ slot xs c = some (h.least (before key) v) ∧
        ∀ i a, i / 2 = m → slot xs i = some a → key (h.least (before key) v) ≤ key a := by
  obtain ⟨hchildren,hor⟩ := least_spec key h v
  rw [hT.left hv,hT.right hv] at hchildren hor
  have hall : ∀ i a, i / 2 = m → slot xs i = some a → key (h.least (before key) v) ≤ key a := by
    intro i a hi ha
    obtain rfl | rfl : i = 2 * m ∨ i = 2 * m + 1 := by omega
    · exact hchildren a (.inl ha)
    · exact hchildren a (.inr ha)
  rcases hor with heq | hl | hr
  · refine .inl ⟨heq,fun i a u hi ha hu => ?_⟩
    obtain rfl := Option.some.inj (hv.symm.trans hu)
    exact heq ▸ hall i a hi ha
  · exact .inr ⟨2 * m,by omega,hl,hall⟩
  · exact .inr ⟨2 * m + 1,by omega,hr,hall⟩

theorem Tree.siftDown (fuel : ℕ) (hT : Tree h xs) (hv : slot xs m = some v) (ho : OrderedBut key xs m)
    (hfuel : xs.length ≤ m + fuel) :
    ∃ h' xs' m', h.siftDown (before key) fuel v = some h' ∧ Tree h' xs' ∧ xs'.Perm xs ∧ slot xs' m' = some v ∧
      OrderedBut key xs' m' ∧ BeforeChildren key xs' m' := by
  induction fuel generalizing h xs m with
  | zero =>
    rcases hT.least_cases key hv with ⟨heq,hc⟩ | ⟨c,hcm,hc,-⟩
    · refine ⟨h,xs,m,?_,hT,.refl xs,hv,ho,hc⟩
      rw [Heap.siftDown,if_pos heq]
    · have hle := (bounds_of_slot hc).2
      have hpos := (bounds_of_slot hv).1
      omega
  | succ fuel ih =>
    rcases hT.least_cases key hv with ⟨heq,hc⟩ | ⟨c,hcm,hc,hall⟩
    · refine ⟨h,xs,m,?_,hT,.refl xs,hv,ho,hc⟩
      rw [Heap.siftDown,if_pos heq]
    · have hpos := (bounds_of_slot hv).1
      obtain ⟨h₁,hswap,hT₁⟩ := hT.swap hc (hcm ▸ hv)
      rw [hcm] at hT₁
      have hv₁ : slot (exchange xs m c) c = some v := by rw [slot_exchange hv hc,if_pos rfl]
      have hperm₁ := exchange_perm hv hc
      obtain ⟨h',xs',m',hs,hT',hperm,hrest⟩ := ih hT₁ hv₁ (ho.down hv hc hcm hall)
        (by rw [hperm₁.length_eq]; omega)
      refine ⟨h',xs',m',?_,hT',hperm.trans hperm₁,hrest⟩
      have hne : h.least (before key) v ≠ v := by
        intro heq
        rw [heq] at hc
        have := slot_inj hT.nodup hc hv
        omega
      rw [Heap.siftDown,if_neg hne]
      simp only [hswap,Option.bind_some]
      exact hs

omit [DecidableEq ι] [LinearOrder β] in
theorem descend_nelts (h : Heap ι) (n d path : ℕ) (p : Option ι) :
    { h with nelts := n }.descend d path p = h.descend d path p := by
  induction d generalizing path p with
  | zero => cases p <;> rfl
  | succ d ih =>
    cases d with
    | zero => cases p <;> rfl
    | succ d =>
      cases p with
      | none => rfl
      | some p => exact ih (path / 2) (h.child p path)

omit [DecidableEq ι] [LinearOrder β] in
theorem lastParent_nelts (h : Heap ι) (n k : ℕ) : { h with nelts := n }.lastParent k = h.lastParent k :=
  descend_nelts h n _ _ _

/-- `heap_insert` adds a node. -/
theorem Tree.insert (hT : Tree h xs) (ho : Ordered key xs) (hv : v ∉ xs) :
    ∃ h' xs', h.insert (before key) v = some h' ∧ Tree h' xs' ∧ xs'.Perm (v :: xs) ∧ Ordered key xs' := by
  obtain ⟨hbut,hchildren⟩ := ho.append v
  obtain ⟨path,hlast,hpath⟩ := hT.lastParent_next
  have hT₁ := hT.attach hv rfl rfl hpath
  have hslot : slot (xs ++ [v]) (xs.length + 1) = some v := by rw [slot_concat,if_pos rfl]
  obtain ⟨h',xs',hs,hT',hperm,ho'⟩ := hT₁.siftUp (xs.length + 1) hslot hbut hchildren (by omega)
  refine ⟨h',xs',?_,hT',hperm.trans (List.perm_append_singleton v xs),ho'⟩
  simp only [Heap.insert,hT.nelts,lastParent_nelts,hlast,Option.bind_eq_bind,Option.bind_some,attach_nelts]
  exact hs

/-- Both loops of `heap_remove` bring the node that has the free place into order. -/
theorem Tree.sift (hT : Tree h xs) (hv : slot xs m = some v) (ho : OrderedBut key xs m) :
    ∃ h' xs', ((h.siftDown (before key) h.nelts v).bind fun h => h.siftUp (before key) h.nelts v) = some h' ∧
      Tree h' xs' ∧ xs'.Perm xs ∧ Ordered key xs' := by
  obtain ⟨h₁,xs₁,m₁,hdown,hT₁,hperm₁,hv₁,ho₁,hc₁⟩ := hT.siftDown h.nelts hv ho (by rw [hT.nelts]; omega)
  have hle := (bounds_of_slot hv₁).2
  obtain ⟨h',xs',hup,hT',hperm,ho'⟩ := hT₁.siftUp h₁.nelts hv₁ ho₁ hc₁ (by rw [hT₁.nelts]; omega)
  exact ⟨h',xs',by rw [hdown,Option.bind_some,hup],hT',hperm.trans hperm₁,ho'⟩

/-- A node without neighbours stays alone. -/
theorem sift_alone (compare : ι → ι → Bool) (hp : h.parent v = none) (hl : h.left v = none) (hr : h.right v = none) :
    ((h.siftDown compare h.nelts v).bind fun h => h.siftUp compare h.nelts v) = some h := by
  have hleast : h.least compare v = v := by rw [least,hl,hr,smaller,smaller]
  have hdown : h.siftDown compare h.nelts v = some h := by
    cases h.nelts <;> rw [Heap.siftDown,if_pos hleast]
  rw [hdown,Option.bind_some]
  cases h.nelts <;> rw [Heap.siftUp,hp]

/-- Without its root a tree of one node is empty. -/
theorem Tree.remove_root (hT : Tree h [v]) :
    Tree { { h with nelts := 0 }.setChild v 0 none with root := none } [] := by
  refine ⟨rfl,by simp,fun ha => absurd ha slot_nil,fun ha => absurd ha slot_nil,fun ha => absurd ha slot_nil,
    List.nodup_nil,fun {a} _ => ?_⟩
  rw [setChild_left,setChild_right]
  by_cases hav : a = v
  · subst hav
    exact ⟨if_pos ⟨rfl,rfl⟩,(if_neg (by simp)).trans (hT.right (m := 1) rfl)⟩
  · rw [if_neg (fun h => hav h.1),if_neg (fun h => hav h.1)]
    exact hT.outside (by simpa using hav)

/-- `heap_remove` takes a node out, wherever it is. -/
theorem Tree.remove (hT : Tree h xs) (ho : Ordered key xs) (hv : v ∈ xs) :
    ∃ h' xs', h.remove (before key) v = some h' ∧ Tree h' xs' ∧ (v :: xs').Perm xs ∧ Ordered key xs' := by
  obtain ⟨m,hm⟩ := mem_iff_slot.mp hv
  have hbounds := bounds_of_slot hm
  rw [Heap.remove,if_neg (by rw [hT.nelts]; omega),hT.nelts]
  by_cases hone : xs.length = 1
  · obtain ⟨x,rfl⟩ := List.length_eq_one_iff.mp hone
    obtain rfl := List.mem_singleton.mp hv
    refine ⟨_,[],?_,hT.remove_root,.refl _,fun m a p ha => absurd ha slot_nil⟩
    have hnone : { h with nelts := 0 }.child v 0 = none := hT.left (m := 1) rfl
    simp only [List.length_singleton,hT.lastParent_one,show slot [v] 1 = some v from rfl,Option.bind_eq_bind,
      Option.bind_some,Nat.sub_self,hnone,setChild_root]
    rw [if_pos (show h.root = some v from hT.root)]
  · have hn : 2 ≤ xs.length := by omega
    obtain ⟨p,hp⟩ := exists_slot (show 0 < xs.length / 2 by omega) (show xs.length / 2 ≤ xs.length by omega)
    obtain ⟨l,hl⟩ := exists_slot (show 0 < xs.length by omega) (Nat.le_refl xs.length)
    have hchild : { h with nelts := xs.length - 1 }.child p (xs.length % 2) = some l := by
      rw [child,Nat.mod_mod,hT.left hp,hT.right hp,← hl]
      split_ifs with hodd
      · rw [show 2 * (xs.length / 2) + 1 = xs.length by omega]
      · rw [show 2 * (xs.length / 2) = xs.length by omega]
    have hcut := hT.cut hn hp (Nat.mod_mod _ _)
    rw [hT.lastParent_eq hn (by omega),hp]
    simp only [Option.bind_eq_bind,Option.bind_some,hchild]
    by_cases hlast : m = xs.length
    · subst hlast
      obtain rfl := Option.some.inj (hl.symm.trans hm)
      have hout : l ∉ xs.dropLast := by
        intro hmem
        obtain ⟨j,hj⟩ := mem_iff_slot.mp hmem
        rw [slot_dropLast] at hj
        split_ifs at hj with hjlt
        exact absurd (slot_inj hT.nodup hj hl) (by omega)
      have hT₁ := hcut.replace_self hout (by rw [setChild_parent]; exact (hT.parent hl).trans hp)
      obtain ⟨hleft,hright⟩ := hT₁.outside hout
      refine ⟨_,xs.dropLast,sift_alone _ (by rw [clear_parent,if_pos rfl]) hleft hright,hT₁,?_,?_⟩
      · rw [← removeSlot_last hl]
        exact removeSlot_perm hm hl
      · intro i a q ha hq
        rw [slot_dropLast] at ha hq
        split_ifs at ha hq
        exact ho i a q ha hq
    · have hlt : m < xs.length := by omega
      have hm' : slot xs.dropLast m = some v := by rw [slot_dropLast,if_pos hlt,hm]
      have hout : l ∉ xs.dropLast := by
        intro hmem
        obtain ⟨j,hj⟩ := mem_iff_slot.mp hmem
        rw [slot_dropLast] at hj
        split_ifs at hj with hjlt
        exact absurd (slot_inj hT.nodup hj hl) (by omega)
      have hT₁ := hcut.replace hm' hout
      rw [← removeSlot_eq_set hm hl hlt] at hT₁
      have hslot : slot (removeSlot xs m) m = some l := by rw [slot_removeSlot hm hl,if_pos hlt,if_pos rfl]
      obtain ⟨h',xs',hs,hT',hperm,ho'⟩ := hT₁.sift hslot (ho.removeSlot hm hl)
      exact ⟨h',xs',hs,hT',(hperm.cons v).trans (removeSlot_perm hm hl),ho'⟩

end Heap
end FDemo.Libhv
