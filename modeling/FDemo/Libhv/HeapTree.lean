import FDemo.Foundation.LevelOrder
import FDemo.Libhv.Heap

/-! # The heap as a tree in level order

The pointers of the heap lay out a list of nodes as a complete binary tree. `heap_swap`
exchanges a node with its parent, and the path that `heap_insert` and `heap_remove`
compute from the number of nodes leads to the parent of the last one.
-/
namespace FDemo.Libhv
open LevelOrder
variable {ι : Type*} [DecidableEq ι]

namespace Heap

section Fields
variable (h : Heap ι) (node a : ι) (p r : Option ι)

@[simp] theorem setParent_parent : (h.setParent node p).parent a = if a = node then p else h.parent a :=
  Function.update_apply h.parent node p a
@[simp] theorem setParent_left : (h.setParent node p).left = h.left := rfl
@[simp] theorem setParent_right : (h.setParent node p).right = h.right := rfl
@[simp] theorem setParent_root : (h.setParent node p).root = h.root := rfl
@[simp] theorem setParent_nelts : (h.setParent node p).nelts = h.nelts := rfl

@[simp] theorem setLeft_left : (h.setLeft node p).left a = if a = node then p else h.left a :=
  Function.update_apply h.left node p a
@[simp] theorem setLeft_parent : (h.setLeft node p).parent = h.parent := rfl
@[simp] theorem setLeft_right : (h.setLeft node p).right = h.right := rfl
@[simp] theorem setLeft_root : (h.setLeft node p).root = h.root := rfl
@[simp] theorem setLeft_nelts : (h.setLeft node p).nelts = h.nelts := rfl

@[simp] theorem setRight_right : (h.setRight node p).right a = if a = node then p else h.right a :=
  Function.update_apply h.right node p a
@[simp] theorem setRight_parent : (h.setRight node p).parent = h.parent := rfl
@[simp] theorem setRight_left : (h.setRight node p).left = h.left := rfl
@[simp] theorem setRight_root : (h.setRight node p).root = h.root := rfl
@[simp] theorem setRight_nelts : (h.setRight node p).nelts = h.nelts := rfl

@[simp] theorem adopt_parent : (h.adopt r p).parent a = if r = some a then p else h.parent a := by
  cases r with
  | none => rfl
  | some b =>
    rw [adopt,setParent_parent]
    simp only [Option.some.injEq,eq_comm]
@[simp] theorem adopt_left : (h.adopt r p).left = h.left := by cases r <;> rfl
@[simp] theorem adopt_right : (h.adopt r p).right = h.right := by cases r <;> rfl
@[simp] theorem adopt_root : (h.adopt r p).root = h.root := by cases r <;> rfl
@[simp] theorem adopt_nelts : (h.adopt r p).nelts = h.nelts := by cases r <;> rfl

@[simp] theorem relink_parent : (h.relink p node r).parent = h.parent := by
  unfold relink
  split
  · rfl
  · split_ifs <;> rfl
@[simp] theorem relink_nelts : (h.relink p node r).nelts = h.nelts := by
  unfold relink
  split
  · rfl
  · split_ifs <;> rfl
@[simp] theorem relink_root : (h.relink p node r).root = if p = none then r else h.root := by
  cases p with
  | none => rfl
  | some b =>
    rw [relink,if_neg (Option.some_ne_none b)]
    split_ifs <;> rfl
@[simp] theorem relink_left :
    (h.relink p node r).left a = if p = some a ∧ h.left a = some node then r else h.left a := by
  cases p with
  | none => simp [relink]
  | some b =>
    rw [relink]
    by_cases hab : a = b
    · subst hab
      split_ifs <;> simp_all
    · have hba : b ≠ a := Ne.symm hab
      split_ifs <;> simp_all
@[simp] theorem relink_right : (h.relink p node r).right a =
    if p = some a ∧ h.left a ≠ some node ∧ h.right a = some node then r else h.right a := by
  cases p with
  | none => simp [relink]
  | some b =>
    rw [relink]
    by_cases hab : a = b
    · subst hab
      split_ifs <;> simp_all
    · have hba : b ≠ a := Ne.symm hab
      split_ifs <;> simp_all

variable (path : ℕ) (b : ι)

@[simp] theorem setChild_parent : (h.setChild b path r).parent = h.parent := by
  unfold setChild
  split_ifs <;> rfl
@[simp] theorem setChild_root : (h.setChild b path r).root = h.root := by
  unfold setChild
  split_ifs <;> rfl
@[simp] theorem setChild_nelts : (h.setChild b path r).nelts = h.nelts := by
  unfold setChild
  split_ifs <;> rfl
@[simp] theorem setChild_left :
    (h.setChild b path r).left a = if a = b ∧ path % 2 = 0 then r else h.left a := by
  unfold setChild
  split_ifs <;> simp_all
@[simp] theorem setChild_right :
    (h.setChild b path r).right a = if a = b ∧ path % 2 = 1 then r else h.right a := by
  unfold setChild
  split_ifs <;> simp_all

@[simp] theorem clear_parent : (h.clear node).parent a = if a = node then none else h.parent a :=
  setParent_parent _ node a none
@[simp] theorem clear_left : (h.clear node).left a = if a = node then none else h.left a :=
  setLeft_left _ node a none
@[simp] theorem clear_right : (h.clear node).right a = if a = node then none else h.right a :=
  setRight_right _ node a none
@[simp] theorem clear_root : (h.clear node).root = h.root := rfl
@[simp] theorem clear_nelts : (h.clear node).nelts = h.nelts := rfl

@[simp] theorem attach_parent : (h.attach p path b).parent a = if a = b then p else h.parent a := by
  cases p <;> simp [attach]
@[simp] theorem attach_root : (h.attach p path b).root = if p = none then some b else h.root := by
  cases p <;> simp [attach]
@[simp] theorem attach_nelts : (h.attach p path b).nelts = h.nelts := by
  cases p <;> simp [attach]
@[simp] theorem attach_left :
    (h.attach p path b).left a = if p = some a ∧ path % 2 = 0 then some b else h.left a := by
  cases p <;> simp [attach,eq_comm]
@[simp] theorem attach_right :
    (h.attach p path b).right a = if p = some a ∧ path % 2 = 1 then some b else h.right a := by
  cases p <;> simp [attach,eq_comm]

end Fields

/-- The fields after `heap_swap`. -/
theorem swap_fields (h : Heap ι) {parent child : ι} (hparent : h.parent child = some parent)
    (hchild : h.left parent = some child ∨ h.right parent = some child)
    (hloop : h.parent parent ≠ some parent) :
    let sibling := if h.left parent = some child then h.right parent else h.left parent
    ∃ h', h.swap parent child = some h' ∧ h'.nelts = h.nelts ∧
      h'.root = (if h.parent parent = none then some child else h.root) ∧
      (∀ a, h'.parent a = if a = parent ∨ sibling = some a then some child else if a = child then h.parent parent
        else if h.right child = some a ∨ h.left child = some a then some parent else h.parent a) ∧
      (∀ a, h'.left a = if a = parent then h.left child
        else if a = child then if h.left parent = some child then some parent else sibling
        else if h.parent parent = some a ∧ h.left a = some parent then some child else h.left a) ∧
      ∀ a, h'.right a = if a = parent then h.right child
        else if a = child then if h.left parent = some child then sibling else some parent
        else if h.parent parent = some a ∧ h.left a ≠ some parent ∧ h.right a = some parent then some child
        else h.right a := by
  intro sibling
  refine ⟨_,if_pos ⟨hparent,hchild⟩,?_⟩
  by_cases hleft : h.left parent = some child
  · have hsibling : sibling = h.right parent := if_pos hleft
    simp [hsibling,hleft,hloop,ite_or]
  · have hsibling : sibling = h.left parent := if_neg hleft
    simp [hsibling,hleft,hloop,ite_or]

/-- The fields after `heap_replace` by a node `r`. -/
theorem replace_fields (h : Heap ι) {s r : ι} (hparent : h.parent s ≠ some s) (hleft : h.left s ≠ some s)
    (hright : h.right s ≠ some s) :
    (h.replace s (some r)).nelts = h.nelts ∧
      (h.replace s (some r)).root = (if h.parent s = none then some r else h.root) ∧
      (∀ a, (h.replace s (some r)).parent a = if a = r then h.parent s
        else if h.right s = some a ∨ h.left s = some a then some r else h.parent a) ∧
      (∀ a, (h.replace s (some r)).left a = if a = r then h.left s
        else if h.parent s = some a ∧ h.left a = some s then some r else h.left a) ∧
      ∀ a, (h.replace s (some r)).right a = if a = r then h.right s
        else if h.parent s = some a ∧ h.left a ≠ some s ∧ h.right a = some s then some r else h.right a := by
  simp [replace,hparent,hleft,hright,ite_or]

/-- The pointers lay out the list, and a node that is not in it has no children. -/
structure Tree (h : Heap ι) (xs : List ι) : Prop where
  root : h.root = slot xs 1
  nelts : h.nelts = xs.length
  parent : ∀ {m a}, slot xs m = some a → h.parent a = slot xs (m / 2)
  left : ∀ {m a}, slot xs m = some a → h.left a = slot xs (2 * m)
  right : ∀ {m a}, slot xs m = some a → h.right a = slot xs (2 * m + 1)
  nodup : xs.Nodup
  outside : ∀ {a}, a ∉ xs → h.left a = none ∧ h.right a = none

namespace Tree
variable {h : Heap ι} {xs : List ι} {m : ℕ} {a child parent : ι}

omit [DecidableEq ι] in
theorem slot_iff (hT : Tree h xs) {i : ℕ} (hi : slot xs i = some a) (j : ℕ) : slot xs j = some a ↔ j = i :=
  ⟨fun hj => slot_inj hT.nodup hj hi,fun hij => hij ▸ hi⟩

/-- `heap_swap` exchanges a node with its parent. -/
theorem swap (hT : Tree h xs) (hchild : slot xs m = some child) (hparent : slot xs (m / 2) = some parent) :
    ∃ h', h.swap parent child = some h' ∧ Tree h' (exchange xs (m / 2) m) := by
  have hpos := (bounds_of_slot hparent).1
  have hslot := slot_exchange hparent hchild
  have hne : child ≠ parent := by
    rintro rfl
    have := slot_inj hT.nodup hchild hparent
    omega
  have hlink : h.left parent = some child ∨ h.right parent = some child := by
    rw [hT.left hparent,hT.right hparent,hT.slot_iff hchild,hT.slot_iff hchild]
    omega
  have hpp := hT.parent hparent
  have hloop : h.parent parent ≠ some parent := by
    rw [hpp,Ne,hT.slot_iff hparent]
    omega
  have hleft : h.left parent = some child ↔ 2 * (m / 2) = m := by
    rw [hT.left hparent,hT.slot_iff hchild]
  obtain ⟨h',hswap,hnelts,hroot,hp,hl,hr⟩ := swap_fields h ((hT.parent hchild).trans hparent) hlink hloop
  have hperm := exchange_perm hparent hchild
  refine ⟨h',hswap,?_,?_,?_,?_,?_,hperm.nodup_iff.mpr hT.nodup,?_⟩
  · have hle := (bounds_of_slot hparent).2
    rw [hroot,hT.root,hpp,hslot,if_neg (show ¬1 = m by omega)]
    simp only [slot_eq_none_iff,show (m / 2 / 2 = 0 ∨ xs.length < m / 2 / 2) ↔ 1 = m / 2 by omega]
  · rw [hnelts,hT.nelts,hperm.length_eq]
  · intro j a ha
    rw [hslot,hp]
    simp only [hleft]
    simp only [hpp,hT.left hparent,hT.right hparent,hT.left hchild,hT.right hchild]
    rcases slot_exchange_cases hT.nodup hparent hchild ha with ⟨rfl,rfl⟩ | ⟨rfl,rfl⟩ | ⟨hjm,hjp,ha,hap,hac⟩
    · rw [if_pos (.inl rfl),if_neg (show ¬j / 2 = j by omega),if_pos rfl]
    · rw [if_neg (show ¬m / 2 / 2 = m by omega),if_neg (show ¬m / 2 / 2 = m / 2 by omega)]
      by_cases heven : 2 * (m / 2) = m
      · simp only [if_pos heven,hne,hT.slot_iff hchild,false_or,if_neg (show ¬2 * (m / 2) + 1 = m by omega),if_true]
      · simp only [if_neg heven,hne,hT.slot_iff hchild,false_or,if_true]
    · by_cases heven : 2 * (m / 2) = m
      · simp only [if_pos heven,hap,hac,hT.slot_iff ha,false_or,if_false,hT.parent ha]
        split_ifs <;> first | rfl | omega
      · simp only [if_neg heven,hap,hac,hT.slot_iff ha,false_or,if_false,hT.parent ha]
        split_ifs <;> first | rfl | omega
  · intro j a ha
    rw [hslot,hl]
    rcases slot_exchange_cases hT.nodup hparent hchild ha with ⟨rfl,rfl⟩ | ⟨rfl,rfl⟩ | ⟨hjm,hjp,ha,hap,hac⟩
    · rw [if_pos rfl,if_neg (by omega),if_neg (by omega),hT.left hchild]
    · rw [if_neg hne,if_pos rfl,if_neg (show ¬2 * (m / 2) = m / 2 by omega)]
      simp only [hleft]
      split_ifs
      · rfl
      · exact hT.left hparent
    · rw [if_neg hap,if_neg hac,if_neg (show ¬2 * j = m by omega),hpp,hT.left ha]
      simp only [hT.slot_iff hparent,hT.slot_iff ha,show (m / 2 / 2 = j ∧ 2 * j = m / 2) ↔ 2 * j = m / 2 by omega]
  · intro j a ha
    rw [hslot,hr]
    rcases slot_exchange_cases hT.nodup hparent hchild ha with ⟨rfl,rfl⟩ | ⟨rfl,rfl⟩ | ⟨hjm,hjp,ha,hap,hac⟩
    · rw [if_pos rfl,if_neg (by omega),if_neg (by omega),hT.right hchild]
    · rw [if_neg hne,if_pos rfl,if_neg (show ¬2 * (m / 2) + 1 = m / 2 by omega)]
      simp only [hleft]
      by_cases heven : 2 * (m / 2) = m
      · rw [if_pos heven,if_pos heven,if_neg (show ¬2 * (m / 2) + 1 = m by omega),hT.right hparent]
      · rw [if_neg heven,if_pos (show 2 * (m / 2) + 1 = m by omega)]
    · rw [if_neg hap,if_neg hac,if_neg (show ¬2 * j + 1 = m by omega),hpp,hT.left ha,hT.right ha]
      simp only [ne_eq,hT.slot_iff hparent,hT.slot_iff ha,
        show (m / 2 / 2 = j ∧ ¬2 * j = m / 2 ∧ 2 * j + 1 = m / 2) ↔ 2 * j + 1 = m / 2 by omega]
  · intro a ha
    rw [hperm.mem_iff] at ha
    have hap : a ≠ parent := fun h => ha (h ▸ mem_iff_slot.mpr ⟨_,hparent⟩)
    have hac : a ≠ child := fun h => ha (h ▸ mem_iff_slot.mpr ⟨_,hchild⟩)
    have hpa : slot xs (m / 2 / 2) ≠ some a := fun h => ha (mem_iff_slot.mpr ⟨_,h⟩)
    rw [hl,hr,hpp,if_neg hap,if_neg hap,if_neg hac,if_neg hac,if_neg (fun h => hpa h.1),if_neg (fun h => hpa h.1)]
    exact hT.outside ha

omit [DecidableEq ι] in
/-- Collecting the path to node `n` and following it ends as the rest of the path does from there. -/
theorem descend_pathLoop (hT : Tree h xs) (fuel n path d : ℕ) (hfuel : n ≤ fuel) (hn : 0 < n) (hle : n ≤ xs.length) :
    h.descend (pathLoop fuel n path (d + 1)).2 (pathLoop fuel n path (d + 1)).1 h.root =
      h.descend (d + 1) path (slot xs n) := by
  induction fuel generalizing n path d with
  | zero => omega
  | succ fuel ih =>
    rw [pathLoop]
    by_cases hroot : 2 ≤ n
    · rw [if_pos hroot,ih (n / 2) (2 * path + n % 2) (d + 1) (by omega) (by omega) (by omega)]
      obtain ⟨p,hp⟩ := exists_slot (show 0 < n / 2 by omega) (show n / 2 ≤ xs.length by omega)
      rw [hp,descend,child,hT.left hp,hT.right hp,show (2 * path + n % 2) / 2 = path by omega]
      congr 1
      split_ifs with hodd
      · rw [show 2 * (n / 2) + 1 = n by omega]
      · rw [show 2 * (n / 2) = n by omega]
    · rw [if_neg hroot,hT.root,show n = 1 by omega]

omit [DecidableEq ι] in
/-- The path leads to the parent of node `n`, and its last step tells which child that node is. -/
theorem lastParent_eq (hT : Tree h xs) {n : ℕ} (hn : 2 ≤ n) (hle : n ≤ xs.length + 1) :
    h.lastParent n = some (slot xs (n / 2),n % 2) := by
  obtain ⟨fuel,rfl⟩ : ∃ fuel, n = fuel + 1 := ⟨n - 1,by omega⟩
  rw [lastParent,pathLoop,if_pos hn,hT.descend_pathLoop fuel _ _ 0 (by omega) (by omega) (by omega),descend]
  simp

omit [DecidableEq ι] in
theorem lastParent_one (hT : Tree h xs) : h.lastParent 1 = some (slot xs 1,0) := by
  rw [← hT.root]
  rfl

omit [DecidableEq ι] in
theorem lastParent_next (hT : Tree h xs) : ∃ path, h.lastParent (xs.length + 1) =
    some (slot xs ((xs.length + 1) / 2),path) ∧ (2 ≤ xs.length + 1 → path % 2 = (xs.length + 1) % 2) := by
  by_cases hn : 2 ≤ xs.length + 1
  · exact ⟨_,hT.lastParent_eq hn (Nat.le_refl _),fun _ => Nat.mod_mod _ _⟩
  · obtain rfl := List.length_eq_zero_iff.mp (show xs.length = 0 by omega)
    exact ⟨0,by simpa [slot_succ] using hT.lastParent_one,fun h => absurd h hn⟩

/-- A node that is attached where the path to the next number ends is the last one. -/
theorem attach (hT : Tree h xs) (ha : a ∉ xs) {n : ℕ} (hn : n = xs.length + 1) {p : Option ι} {path : ℕ}
    (hp : p = slot xs (n / 2)) (hpath : 2 ≤ n → path % 2 = n % 2) :
    Tree ({ h with nelts := n }.attach p path a) (xs ++ [a]) := by
  subst hn hp
  have hslot := slot_concat xs a
  have hlast : ∀ {j}, xs.length < j → slot xs j = none := fun hj => slot_eq_none_iff.mpr (.inr hj)
  have hnot : ∀ {j}, slot xs j ≠ some a := fun h => ha (mem_iff_slot.mpr ⟨_,h⟩)
  refine ⟨?_,?_,?_,?_,?_,?_,?_⟩
  · rw [attach_root,hslot,hT.root]
    simp only [slot_eq_none_iff,
      show ((xs.length + 1) / 2 = 0 ∨ xs.length < (xs.length + 1) / 2) ↔ 1 = xs.length + 1 by omega]
  · simp
  · intro j b hb
    rw [attach_parent,hslot]
    rcases slot_concat_cases ha hb with ⟨rfl,rfl⟩ | ⟨hj,hb,hba⟩
    · rw [if_pos rfl,if_neg (by omega)]
    · rw [if_neg hba,if_neg (by omega)]
      exact hT.parent hb
  · intro j b hb
    rw [attach_left,hslot]
    rcases slot_concat_cases ha hb with ⟨rfl,rfl⟩ | ⟨hj,hb,hba⟩
    · rw [if_neg (fun h => hnot h.1),if_neg (by omega),hlast (by omega)]
      exact (hT.outside ha).1
    · have hpos := (bounds_of_slot hb).1
      simp only [hT.slot_iff hb,show ((xs.length + 1) / 2 = j ∧ path % 2 = 0) ↔ 2 * j = xs.length + 1 by omega]
      rw [← hT.left hb]
  · intro j b hb
    rw [attach_right,hslot]
    rcases slot_concat_cases ha hb with ⟨rfl,rfl⟩ | ⟨hj,hb,hba⟩
    · rw [if_neg (fun h => hnot h.1),if_neg (by omega),hlast (by omega)]
      exact (hT.outside ha).2
    · have hpos := (bounds_of_slot hb).1
      simp only [hT.slot_iff hb,show ((xs.length + 1) / 2 = j ∧ path % 2 = 1) ↔ 2 * j + 1 = xs.length + 1 by omega]
      rw [← hT.right hb]
  · exact List.nodup_append.mpr ⟨hT.nodup,List.nodup_singleton a,fun b hb c hc h => ha (by simp_all)⟩
  · intro b hb
    rw [List.mem_append,not_or] at hb
    have hbp : slot xs ((xs.length + 1) / 2) ≠ some b := fun h => hb.1 (mem_iff_slot.mpr ⟨_,h⟩)
    rw [attach_left,attach_right,if_neg (fun h => hbp h.1),if_neg (fun h => hbp h.1)]
    exact hT.outside hb.1

/-- Without the pointer to the last node the others are laid out alone. -/
theorem cut (hT : Tree h xs) {p : ι} {path : ℕ} (hn : 2 ≤ xs.length) (hp : slot xs (xs.length / 2) = some p)
    (hpath : path % 2 = xs.length % 2) :
    Tree ({ h with nelts := xs.length - 1 }.setChild p path none) xs.dropLast := by
  have hslot := slot_dropLast xs
  have hcases : ∀ {j b}, slot xs.dropLast j = some b → j < xs.length ∧ slot xs j = some b := by
    intro j b hb
    rw [hslot] at hb
    split_ifs at hb with hj
    exact ⟨hj,hb⟩
  have hlast : ∀ {j}, xs.length < j → slot xs j = none := fun hj => slot_eq_none_iff.mpr (.inr hj)
  refine ⟨?_,?_,?_,?_,?_,hT.nodup.sublist (List.dropLast_sublist xs),?_⟩
  · rw [setChild_root,hslot,if_pos (by omega)]
    exact hT.root
  · simp
  · intro j b hb
    obtain ⟨hj,hb⟩ := hcases hb
    rw [setChild_parent,hslot,if_pos (by omega)]
    exact hT.parent hb
  · intro j b hb
    obtain ⟨hj,hb⟩ := hcases hb
    rw [setChild_left,hslot]
    have hiff : b = p ↔ xs.length / 2 = j := by
      rw [← hT.slot_iff hb,hp,Option.some.injEq,eq_comm]
    simp only [hiff,hT.left hb]
    split_ifs <;> first | rfl | omega | exact hlast (by omega)
  · intro j b hb
    obtain ⟨hj,hb⟩ := hcases hb
    rw [setChild_right,hslot]
    have hiff : b = p ↔ xs.length / 2 = j := by
      rw [← hT.slot_iff hb,hp,Option.some.injEq,eq_comm]
    simp only [hiff,hT.right hb]
    split_ifs <;> first | rfl | omega | exact hlast (by omega)
  · intro b hb
    have hbp : b ≠ p := by
      rintro rfl
      refine hb (mem_iff_slot.mpr ⟨xs.length / 2,?_⟩)
      rw [hslot,if_pos (by omega),hp]
    rw [setChild_left,setChild_right,if_neg (fun h => hbp h.1),if_neg (fun h => hbp h.1)]
    by_cases hmem : b ∈ xs
    · obtain ⟨j,hj⟩ := mem_iff_slot.mp hmem
      have hle : ¬j < xs.length := by
        intro hlt
        refine hb (mem_iff_slot.mpr ⟨j,?_⟩)
        rw [hslot,if_pos hlt,hj]
      have hpos := (bounds_of_slot hj).1
      exact ⟨(hT.left hj).trans (hlast (by omega)),(hT.right hj).trans (hlast (by omega))⟩
    · exact hT.outside hmem

/-- A node outside takes the place of one inside, whose links are cleared. -/
theorem replace (hT : Tree h xs) {l : ι} (ha : slot xs m = some a) (hl : l ∉ xs) :
    Tree ((h.replace a (some l)).clear a) (xs.set (m - 1) l) := by
  have hpos := (bounds_of_slot ha).1
  have hslot := slot_set ha l
  have hnot : ∀ {j}, slot xs j ≠ some l := fun h => hl (mem_iff_slot.mpr ⟨_,h⟩)
  have hne : l ≠ a := fun h => hnot (h ▸ ha)
  have hpp := hT.parent ha
  have hll := hT.left ha
  have hrr := hT.right ha
  have hself : ∀ {j}, j ≠ m → slot xs j ≠ some a := fun hj h => hj ((hT.slot_iff ha _).mp h)
  obtain ⟨hnelts,hroot,hp,hleft,hright⟩ := replace_fields h (s := a) (r := l) (hpp ▸ hself (by omega))
    (hll ▸ hself (by omega)) (hrr ▸ hself (by omega))
  refine ⟨?_,?_,?_,?_,?_,?_,?_⟩
  · have hle := (bounds_of_slot ha).2
    rw [clear_root,hroot,hslot,hpp,hT.root]
    simp only [slot_eq_none_iff,show (m / 2 = 0 ∨ xs.length < m / 2) ↔ 1 = m by omega]
  · rw [clear_nelts,hnelts,hT.nelts,List.length_set]
  · intro j b hb
    rw [clear_parent,hp,hslot]
    rcases slot_set_cases hT.nodup ha hl hb with ⟨rfl,rfl⟩ | ⟨hj,hb,hbl,hba⟩
    · rw [if_neg hne,if_pos rfl,if_neg (by omega),hpp]
    · rw [if_neg hba,if_neg hbl,hll,hrr,hT.parent hb]
      simp only [hT.slot_iff hb,show (2 * m + 1 = j ∨ 2 * m = j) ↔ j / 2 = m by omega]
  · intro j b hb
    rw [clear_left,hleft,hslot]
    rcases slot_set_cases hT.nodup ha hl hb with ⟨rfl,rfl⟩ | ⟨hj,hb,hbl,hba⟩
    · rw [if_neg hne,if_pos rfl,if_neg (by omega),hll]
    · rw [if_neg hba,if_neg hbl,hpp,hT.left hb]
      simp only [hT.slot_iff hb,hT.slot_iff ha,show (m / 2 = j ∧ 2 * j = m) ↔ 2 * j = m by omega]
  · intro j b hb
    rw [clear_right,hright,hslot]
    rcases slot_set_cases hT.nodup ha hl hb with ⟨rfl,rfl⟩ | ⟨hj,hb,hbl,hba⟩
    · rw [if_neg hne,if_pos rfl,if_neg (by omega),hrr]
    · rw [if_neg hba,if_neg hbl,hpp,hT.left hb,hT.right hb]
      simp only [ne_eq,hT.slot_iff hb,hT.slot_iff ha,
        show (m / 2 = j ∧ ¬2 * j = m ∧ 2 * j + 1 = m) ↔ 2 * j + 1 = m by omega]
  · exact hT.nodup.set hl
  · intro b hb
    rw [clear_left,clear_right]
    by_cases hba : b = a
    · rw [if_pos hba,if_pos hba]
      exact ⟨rfl,rfl⟩
    · have hbl : b ≠ l := by
        rintro rfl
        refine hb (mem_iff_slot.mpr ⟨m,?_⟩)
        rw [hslot,if_pos rfl]
      have hmem : b ∉ xs := by
        intro h
        obtain ⟨j,hj⟩ := mem_iff_slot.mp h
        refine hb (mem_iff_slot.mpr ⟨j,?_⟩)
        rw [hslot,if_neg fun hjm => hba ?_,hj]
        exact Option.some.inj (hj.symm.trans (hjm ▸ ha))
      have hpb : h.parent a ≠ some b := fun h => hmem (mem_iff_slot.mpr ⟨_,hpp ▸ h⟩)
      rw [if_neg hba,if_neg hba,hleft,hright,if_neg hbl,if_neg hbl,if_neg (fun h => hpb h.1),
        if_neg (fun h => hpb h.1)]
      exact hT.outside hmem

/-- A node outside that still has a parent is only cleared when it is replaced by itself. -/
theorem replace_self (hT : Tree h xs) (ha : a ∉ xs) (hp : h.parent a = some parent) :
    Tree ((h.replace a (some a)).clear a) xs := by
  obtain ⟨hl,hr⟩ := hT.outside ha
  have hparent : ∀ b, b ≠ a → ((h.replace a (some a)).clear a).parent b = h.parent b := by
    intro b hb
    simp [Heap.replace,hp,hl,hr,hb]
  have hleft : ∀ b, ((h.replace a (some a)).clear a).left b = h.left b := by
    intro b
    by_cases hb : b = a
    · simp [hb,hl]
    · simp only [clear_left,if_neg hb,Heap.replace,hp,setRight_left,setLeft_left,setParent_left,adopt_left,relink_left]
      split_ifs with h
      · exact h.2.symm
      · rfl
  have hright : ∀ b, ((h.replace a (some a)).clear a).right b = h.right b := by
    intro b
    by_cases hb : b = a
    · simp [hb,hr]
    · simp only [clear_right,if_neg hb,Heap.replace,hp,setRight_right,setLeft_right,setParent_right,adopt_right,
        relink_right]
      split_ifs with h
      · exact h.2.2.symm
      · rfl
  refine ⟨?_,?_,fun {m b} hb => ?_,fun {m b} hb => (hleft b).trans (hT.left hb),
    fun {m b} hb => (hright b).trans (hT.right hb),hT.nodup,fun {b} hb => ?_⟩
  · simpa [Heap.replace,hp] using hT.root
  · simpa [Heap.replace,hp] using hT.nelts
  · rw [hparent b fun h => ha (h ▸ mem_iff_slot.mpr ⟨m,hb⟩),hT.parent hb]
  · rw [hleft,hright]
    exact hT.outside hb

theorem clear (hT : Tree h xs) (ha : a ∉ xs) : Tree (h.clear a) xs := by
  have hne : ∀ {m b}, slot xs m = some b → b ≠ a := by
    rintro m b hb rfl
    exact ha (mem_iff_slot.mpr ⟨m,hb⟩)
  refine ⟨hT.root,hT.nelts,fun hb => ?_,fun hb => ?_,fun hb => ?_,hT.nodup,fun {b} hb => ?_⟩
  · rw [clear_parent,if_neg (hne hb),hT.parent hb]
  · rw [clear_left,if_neg (hne hb),hT.left hb]
  · rw [clear_right,if_neg (hne hb),hT.right hb]
  · obtain ⟨hl,hr⟩ := hT.outside hb
    rw [clear_left,clear_right,hl,hr]
    exact ⟨ite_self none,ite_self none⟩

end Tree
end Heap
end FDemo.Libhv
