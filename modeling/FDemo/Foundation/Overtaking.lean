import FDemo.Foundation.Collector

/-! # Two numbered streams into one collector

Two senders number their items from zero and send them in order; a collector
that cannot tell them apart receives some interleaving. Every round is made of
one sender's items alone when one of them sends everything before the other, or
when both send equally many items and one overtakes the other: whatever the slow
one has sent by then is sent once more by the fast one.
-/
namespace FDemo.Collector
variable {α : Type*} {number size : α → ℕ} {own other slow fast : ℕ → α} {n m i j k : ℕ}
variable {order xs ys zs p post : List α} {x y : α}

def stream (f : ℕ → α) (i n : ℕ) : List α := (List.range' i (n - i)).map f

/-- Two senders and what the collector sees of their items. -/
structure Streams (number size : α → ℕ) (own other : ℕ → α) (n m : ℕ) : Prop where
  number_own : ∀ k, number (own k) = k
  number_other : ∀ k, number (other k) = k
  size_own : ∀ k, size (own k) = n
  size_other : ∀ k, size (other k) = m
  own_ne_other : ∀ j k, own j ≠ other k

/-- A round of as many items as `side` announces, all of which come from there. -/
structure Whole (number size : α → ℕ) (side : ℕ → α) (p : List α) : Prop where
  total : total size p = size (side 0)
  last : ∀ k < size (side 0), lastNumbered number p k = some (side k)

/-- Every item of `slow` comes before the item of `fast` with the same number, or after the last one. -/
structure Overtakes [DecidableEq α] (order : List α) (n : ℕ) (slow fast : ℕ → α) : Prop where
  apart : ∀ k < n, order.idxOf (slow k) < order.idxOf (fast k) ∨ order.idxOf (fast (n - 1)) < order.idxOf (slow k)
  last : order.idxOf (fast (n - 1)) < order.idxOf (slow (n - 1))

section Stream
variable {f : ℕ → α}

theorem mem_stream : x ∈ stream f i n ↔ ∃ k, i ≤ k ∧ k < n ∧ x = f k := by
  simp only [stream,List.mem_map,List.mem_range'_1]
  constructor
  · rintro ⟨k,hk,rfl⟩
    exact ⟨k,hk.1,by omega,rfl⟩
  · rintro ⟨k,hik,hkn,rfl⟩
    exact ⟨k,⟨hik,by omega⟩,rfl⟩

theorem stream_zero : stream f 0 n = (List.range n).map f := by rw [stream,List.range_eq_range',Nat.sub_zero]

@[simp] theorem stream_self : stream f n n = [] := by simp [stream]

theorem stream_eq_append (h : stream f i n = xs ++ ys) : ∃ k, xs = stream f i k ∧ ys = stream f k n := by
  obtain ⟨l,l',hl,rfl,rfl⟩ := List.map_eq_append_iff.mp h
  obtain ⟨k,hk,rfl,rfl⟩ := List.range'_eq_append_iff.mp hl
  refine ⟨i + k,?_,?_⟩
  · rw [stream,Nat.add_sub_cancel_left]
  · rw [stream,Nat.mul_one,Nat.sub_sub]

theorem stream_eq_cons (h : stream f i n = x :: xs) : i < n ∧ x = f i ∧ xs = stream f (i + 1) n := by
  have hlt : i < n := by
    by_contra hle
    rw [stream,Nat.sub_eq_zero_of_le (Nat.not_lt.mp hle)] at h
    simp at h
  rw [stream,show n - i = (n - (i + 1)) + 1 by omega,List.range'_succ,List.map_cons] at h
  obtain ⟨rfl,rfl⟩ := List.cons_eq_cons.mp h
  exact ⟨hlt,rfl,rfl⟩

theorem stream_concat (h : i ≤ n) : stream f i n ++ [f n] = stream f i (n + 1) := by
  rw [stream,stream,show n + 1 - i = (n - i) + 1 by omega,List.range'_1_concat,List.map_append,
    show i + (n - i) = n by omega]
  rfl

end Stream

namespace Streams
variable (S : Streams number size own other n m)
include S

theorem symm : Streams number size other own m n :=
  ⟨S.number_other,S.number_own,S.size_other,S.size_own,fun j k => (S.own_ne_other k j).symm⟩

omit S in
theorem mem_iff (h : Interleave (stream own 0 i) (stream other 0 j) p) :
    x ∈ p ↔ (∃ k < i, x = own k) ∨ ∃ k < j, x = other k := by
  rw [← h.perm.mem_iff,List.mem_append,mem_stream,mem_stream]
  simp

theorem own_mem_iff (h : Interleave (stream own 0 i) (stream other 0 j) p) : own k ∈ p ↔ k < i := by
  rw [mem_iff h]
  constructor
  · rintro (⟨l,hl,hkl⟩ | ⟨l,-,hkl⟩)
    · have hnum := congrArg number hkl
      rw [S.number_own,S.number_own] at hnum
      exact hnum ▸ hl
    · exact absurd hkl (S.own_ne_other k l)
  · exact fun hk => Or.inl ⟨k,hk,rfl⟩

theorem other_mem_iff (h : Interleave (stream own 0 i) (stream other 0 j) p) : other k ∈ p ↔ k < j :=
  S.symm.own_mem_iff h.symm

theorem count_eq (h : Interleave (stream own 0 i) (stream other 0 j) p) : count number p = max i j := by
  have hnumbers : (p.map number).toFinset = Finset.range (max i j) := by
    ext k
    simp only [List.mem_toFinset,List.mem_map,mem_iff h,Finset.mem_range,lt_max_iff]
    constructor
    · rintro ⟨x,⟨k,hk,rfl⟩ | ⟨k,hk,rfl⟩,rfl⟩
      · exact Or.inl ((S.number_own k).symm ▸ hk)
      · exact Or.inr ((S.number_other k).symm ▸ hk)
    · rintro (hk | hk)
      · exact ⟨own k,Or.inl ⟨k,hk,rfl⟩,S.number_own k⟩
      · exact ⟨other k,Or.inr ⟨k,hk,rfl⟩,S.number_other k⟩
  rw [count,hnumbers,Finset.card_range]

theorem total_stream (h : i < n) : total size (stream own i n) = n := by
  rw [stream,show n - i = (n - (i + 1)) + 1 by omega,List.range'_succ]
  exact S.size_own i

theorem lastNumbered_cases (h : Interleave (stream own 0 i) (stream other 0 j) p) (hk : k < i ∨ k < j) :
    own k ∈ p ∧ lastNumbered number p k = some (own k) ∨ other k ∈ p ∧ lastNumbered number p k = some (other k) := by
  have hmem : k ∈ p.map number := by
    rcases hk with hk | hk
    · exact S.number_own k ▸ List.mem_map_of_mem ((S.own_mem_iff h).mpr hk)
    · exact S.number_other k ▸ List.mem_map_of_mem ((S.other_mem_iff h).mpr hk)
  obtain ⟨x,hx,hlast⟩ := exists_lastNumbered hmem
  have hnum := (lastNumbered_eq_some.mp hlast).1
  rcases (mem_iff h).mp hx with ⟨l,-,rfl⟩ | ⟨l,-,rfl⟩
  · obtain rfl : l = k := (S.number_own l).symm.trans hnum
    exact Or.inl ⟨hx,hlast⟩
  · obtain rfl : l = k := (S.number_other l).symm.trans hnum
    exact Or.inr ⟨hx,hlast⟩

theorem nodup (h : Interleave (stream own 0 i) (stream other 0 j) p) : p.Nodup := by
  have hown : (stream own 0 i).Nodup :=
    List.Nodup.map (fun k l hkl => by rw [← S.number_own k,hkl,S.number_own]) List.nodup_range'
  have hother : (stream other 0 j).Nodup :=
    List.Nodup.map (fun k l hkl => by rw [← S.number_other k,hkl,S.number_other]) List.nodup_range'
  refine h.perm.nodup_iff.mp (List.nodup_append.mpr ⟨hown,hother,?_⟩)
  intro x hx y hy
  obtain ⟨k,-,-,rfl⟩ := mem_stream.mp hx
  obtain ⟨l,-,-,rfl⟩ := mem_stream.mp hy
  exact S.own_ne_other k l

/-- The first round ends with the first item that has the last wanted number. -/
theorem first_round (hn : 0 < n) (h : Interleave (stream own 0 n) (stream other 0 m) order)
    (ht : total size order = n) : ∃ p post i j, order = p ++ post ∧ p ≠ [] ∧
      Interleave (stream own 0 i) (stream other 0 j) p ∧ Interleave (stream own i n) (stream other j m) post ∧
      rounds number size [] order = p :: rounds number size [] post ∧
      (i = n ∧ j < n ∨ i < n ∧ j = n ∧ p.getLast? = some (other (n - 1))) := by
  have hmem : own (n - 1) ∈ order := (S.own_mem_iff h).mpr (by omega)
  cases hx : order.find? (fun x => number x == n - 1) with
  | none =>
    have hnot := List.find?_eq_none.mp hx _ hmem
    simp [S.number_own] at hnot
  | some x =>
    obtain ⟨hxn,pre,post,rfl,hpre⟩ := List.find?_eq_some_iff_append.mp hx
    obtain ⟨xs,xs',ys,ys',hxs,hys,hfirst,hrest⟩ := h.split
    obtain ⟨i,rfl,rfl⟩ := stream_eq_append hxs
    obtain ⟨j,rfl,rfl⟩ := stream_eq_append hys
    have hi : i ≤ n - 1 := by
      by_contra hlt
      have hnot := hpre (own (n - 1)) ((S.own_mem_iff hfirst).mpr (by omega))
      simp [S.number_own] at hnot
    have hj : j ≤ n - 1 := by
      by_contra hlt
      have hnot := hpre (other (n - 1)) ((S.other_mem_iff hfirst).mpr (by omega))
      simp [S.number_other] at hnot
    have hcount := S.count_eq hfirst
    have hsplit : pre ++ x :: post = (pre ++ [x]) ++ post := List.append_cons _ _ _
    have htotal : total size (pre ++ [x]) = n := by
      rw [← ht,hsplit]
      exact (total_append (by simp)).symm
    have hround : ∀ i' j', Interleave (stream own 0 i') (stream other 0 j') (pre ++ [x]) → n ≤ max i' j' →
        rounds number size [] (pre ++ x :: post) = (pre ++ [x]) :: rounds number size [] post := by
      intro i' j' h' hle
      refine rounds_of_full (by omega) ?_
      rw [htotal,S.count_eq h']
      exact hle
    generalize hxs' : stream own i n = xs' at hrest
    generalize hys' : stream other j m = ys' at hrest
    cases hrest with
    | left hrest =>
      obtain ⟨hlt,rfl,rfl⟩ := stream_eq_cons hxs'
      subst hys'
      obtain rfl : i = n - 1 := by simpa [S.number_own] using hxn
      have hp : Interleave (stream own 0 n) (stream other 0 j) (pre ++ [own (n - 1)]) := by
        have hlast := hfirst.append (.left .nil : Interleave [own (n - 1)] [] [own (n - 1)])
        rwa [stream_concat (Nat.zero_le _),Nat.sub_add_cancel hn,List.append_nil] at hlast
      rw [Nat.sub_add_cancel hn] at hrest
      exact ⟨_,post,n,j,hsplit,by simp,hp,hrest,hround n j hp (le_max_left _ _),Or.inl ⟨rfl,by omega⟩⟩
    | right hrest =>
      obtain ⟨hlt,rfl,rfl⟩ := stream_eq_cons hys'
      subst hxs'
      obtain rfl : j = n - 1 := by simpa [S.number_other] using hxn
      have hp : Interleave (stream own 0 i) (stream other 0 n) (pre ++ [other (n - 1)]) := by
        have hlast := hfirst.append (.right .nil : Interleave [] [other (n - 1)] [other (n - 1)])
        rwa [stream_concat (Nat.zero_le _),Nat.sub_add_cancel hn,List.append_nil] at hlast
      rw [Nat.sub_add_cancel hn] at hrest
      exact ⟨_,post,i,n,hsplit,by simp,hp,hrest,hround i n hp (le_max_right _ _),Or.inr ⟨by omega,rfl,by simp⟩⟩

/-- A lone sender's items end their round. -/
theorem rounds_own (hn : 0 < n) : rounds number size [] (stream own 0 n) = [stream own 0 n] ∧
    Whole number size own (stream own 0 n) := by
  have halone : ∀ i, Interleave (stream own 0 i) (stream other 0 0) (stream own 0 i) := by
    intro i
    rw [stream_self]
    exact .nil_right _
  have hconcat : stream own 0 n = stream own 0 (n - 1) ++ [own (n - 1)] := by
    rw [stream_concat (Nat.zero_le _),Nat.sub_add_cancel hn]
  have htotal := S.total_stream hn
  constructor
  · have hround : rounds number size [] (stream own 0 (n - 1) ++ own (n - 1) :: []) =
        [stream own 0 (n - 1) ++ [own (n - 1)]] := by
      refine rounds_of_full ?_ ?_
      · rw [← hconcat,htotal,S.count_eq (halone (n - 1))]
        omega
      · rw [← hconcat,htotal,S.count_eq (halone n)]
        exact le_max_left _ _
    rwa [← hconcat] at hround
  · refine ⟨htotal.trans (S.size_own 0).symm,fun k hk => ?_⟩
    rw [S.size_own] at hk
    rcases S.lastNumbered_cases (halone n) (Or.inl hk) with ⟨-,hlast⟩ | ⟨hmem,-⟩
    · exact hlast
    · exact absurd ((S.other_mem_iff (halone n)).mp hmem) (Nat.not_lt_zero k)

section Rounds
variable [DecidableEq α]

/-- When the first round is one sender's, the sender that starts is done first or overtaken. -/
theorem overtakes_of_whole (hn : 0 < n) (h : Interleave (stream own 0 n) (stream other 0 m) order)
    (hhead : order.head? = some (own 0))
    (hwhole : ∀ p post i j, order = p ++ post → p ∈ rounds number size [] order →
      Interleave (stream own 0 i) (stream other 0 j) p → total size p ≤ max i j →
        Whole number size own p ∨ Whole number size other p) :
    order = stream own 0 n ++ stream other 0 m ∨ n = m ∧ Overtakes order n own other := by
  have htotal : ∀ {p post}, order = p ++ post → p ≠ [] → ∃ rest, p = own 0 :: rest ∧ total size p = n := by
    rintro p post rfl hne
    obtain ⟨y,rest,rfl⟩ := List.exists_cons_of_ne_nil hne
    obtain rfl : y = own 0 := by simpa using hhead
    exact ⟨rest,rfl,S.size_own 0⟩
  obtain ⟨-,-,ht⟩ := htotal (List.append_nil order).symm (by rintro rfl; simp at hhead)
  obtain ⟨p,post,i,j,rfl,hne,hp,hpost,hrounds,hcases⟩ := S.first_round hn h ht
  obtain ⟨rest,hrest,hpt⟩ := htotal rfl hne
  have hnodup := S.nodup hp
  have hfirst := hwhole p post i j rfl (by rw [hrounds]; exact List.mem_cons_self) hp (by omega)
  rcases hcases with ⟨hin,hj⟩ | ⟨hi,hjn,hlast⟩
  · left
    obtain rfl := hin.symm
    have hj0 : j = 0 := by
      by_contra hj0
      rcases hfirst with hown | hother
      · have hmem0 : other 0 ∈ p := (S.other_mem_iff hp).mpr (by omega)
        have hlt := idxOf_lt_of_lastNumbered hnodup (hown.last 0 (by rw [S.size_own]; exact hn)) hmem0
          (S.number_other 0) (S.own_ne_other 0 0).symm
        rw [hrest,List.idxOf_cons_self] at hlt
        omega
      · have hsize := hother.total
        rw [hpt,S.size_other] at hsize
        have hmemn := (S.other_mem_iff hp).mp (mem_of_lastNumbered (hother.last (n - 1) (by rw [S.size_other]; omega)))
        omega
    subst hj0
    rw [stream_self] at hp hpost
    rw [hp.eq_of_nil_right,hpost.eq_of_nil_left]
  · right
    obtain rfl := hjn.symm
    have hin : ∀ {x : α}, x ∈ p → (p ++ post).idxOf x = p.idxOf x := fun hx => List.idxOf_append_of_mem hx
    have hlater : ∀ k, i ≤ k → (p ++ post).idxOf (other (n - 1)) < (p ++ post).idxOf (own k) := by
      intro k hk
      have hx : other (n - 1) ∈ p := (S.other_mem_iff hp).mpr (by omega)
      have hy : own k ∉ p := fun hy => Nat.not_lt.mpr hk ((S.own_mem_iff hp).mp hy)
      exact idxOf_append_lt hx hy
    rcases hfirst with hown | hother
    · have hmemn := (S.own_mem_iff hp).mp (mem_of_lastNumbered (hown.last (n - 1) (by rw [S.size_own]; omega)))
      omega
    · have hsize := hother.total
      rw [hpt,S.size_other] at hsize
      refine ⟨hsize,⟨fun k hk => ?_,hlater (n - 1) (by omega)⟩⟩
      by_cases hki : k < i
      · left
        have hx : own k ∈ p := (S.own_mem_iff hp).mpr hki
        have hy : other k ∈ p := (S.other_mem_iff hp).mpr hk
        rw [hin hx,hin hy]
        exact idxOf_lt_of_lastNumbered hnodup (hother.last k (by rw [S.size_other]; omega)) hx (S.number_own k)
          (S.own_ne_other k k)
      · exact Or.inr (hlater k (by omega))

/-- When one of two equal senders overtakes the other, every round is one sender's. -/
theorem whole_of_overtakes (hn : 0 < n) (hm : m = n) (h : Interleave (stream own 0 n) (stream other 0 m) order)
    (ho : Overtakes order n own other) : rounds number size [] order ≠ [] ∧
      ∀ p ∈ rounds number size [] order, Whole number size own p ∨ Whole number size other p := by
  subst hm
  have hsize : ∀ {p post}, order = p ++ post → p ≠ [] → total size p = m := by
    rintro p post rfl hne
    obtain ⟨y,rest,rfl⟩ := List.exists_cons_of_ne_nil hne
    have hy : y ∈ y :: rest ++ post := List.mem_cons_self
    rcases (mem_iff h).mp hy with ⟨k,-,rfl⟩ | ⟨k,-,rfl⟩
    · exact S.size_own k
    · exact S.size_other k
  have hne : order ≠ [] := List.ne_nil_of_mem ((S.own_mem_iff h).mpr hn)
  obtain ⟨p,post,i,j,rfl,hpne,hp,hpost,hrounds,hcases⟩ := S.first_round hn h (hsize (List.append_nil order).symm hne)
  have hpt := hsize rfl hpne
  have hnodup := S.nodup hp
  have hin : ∀ {x : α}, x ∈ p → (p ++ post).idxOf x = p.idxOf x := fun hx => List.idxOf_append_of_mem hx
  rw [hrounds]
  refine ⟨List.cons_ne_nil _ _,?_⟩
  rcases hcases with ⟨him,hj⟩ | ⟨hi,hjm,hlast⟩
  · -- the slow sender's last item would come first
    have hx : own (m - 1) ∈ p := (S.own_mem_iff hp).mpr (by omega)
    have hy : other (m - 1) ∉ p := fun hy => by
      have := (S.other_mem_iff hp).mp hy
      omega
    exact absurd ho.last (Nat.not_lt.mpr (Nat.le_of_lt (idxOf_append_lt hx hy)))
  · obtain rfl := hjm.symm
    rw [List.forall_mem_cons]
    constructor
    · right
      refine ⟨hpt.trans (S.size_other 0).symm,fun k hk => ?_⟩
      rw [S.size_other] at hk
      have hother : other k ∈ p := (S.other_mem_iff hp).mpr hk
      rcases S.lastNumbered_cases hp (Or.inr hk) with ⟨hown,hxk⟩ | ⟨-,hxk⟩
      · -- what the slow sender has sent so far, the fast one sends again
        have hlt := idxOf_lt_of_lastNumbered hnodup hxk hother (S.number_other k) (S.own_ne_other k k).symm
        have hle := idxOf_le_idxOf_last hnodup hlast hown
        have hend : other (m - 1) ∈ p := List.mem_of_getLast? hlast
        have hapart := ho.apart k hk
        rw [hin hown,hin hother,hin hend] at hapart
        omega
      · exact hxk
    · rw [stream_self] at hpost
      rw [hpost.eq_of_nil_right]
      by_cases hi0 : i = 0
      · subst hi0
        obtain ⟨hown,hwhole⟩ := S.rounds_own hn
        rw [hown,List.forall_mem_singleton]
        exact Or.inl hwhole
      · have hlen : (stream own i m).length = m - i := by simp [stream]
        have hcount : count number (stream own i m) ≤ (stream own i m).length := count_le_length
        have hshort : rounds number size [] (stream own i m) = [] := by
          refine (rounds_of_short ?_).1
          rw [List.nil_append,S.total_stream hi]
          omega
        rw [hshort]
        simp

end Rounds
end Streams
end FDemo.Collector
