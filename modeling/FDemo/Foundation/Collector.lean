import Mathlib.Data.Finset.Card
import FDemo.Foundation.Interleave
import FDemo.Foundation.Mealy

/-! # Collecting numbered items until there are enough

A collector gathers numbered items. The first item of a round announces how many
different numbers are wanted, and the round ends with the item that brings them
up to that many. Of several items with one number the last one counts.
-/
namespace FDemo.Collector
open Mealy
variable {α : Type*} (number size : α → ℕ)

/-- The size that the first item announces. -/
def total : List α → ℕ
  | [] => 0
  | x :: _ => size x

def count (p : List α) : ℕ := (p.map number).toFinset.card

def collect (p : List α) (x : α) : List α × Option (List α) :=
  if count number (p ++ [x]) < total size (p ++ [x]) then (p ++ [x],none) else ([],some (p ++ [x]))

/-- The rounds that end within the items. -/
def rounds (p xs : List α) : List (List α) := (trace (collect number size) p xs).filterMap Prod.snd

def lastNumbered (p : List α) (k : ℕ) : Option α := p.reverse.find? fun x => number x == k

section Count
variable {number size} {p q xs ys : List α} {x y : α} {k : ℕ}

theorem total_append (h : p ≠ []) : total size (p ++ q) = total size p := by
  cases p with
  | nil => exact absurd rfl h
  | cons x p => rfl

theorem count_le_append : count number p ≤ count number (p ++ q) := by
  refine Finset.card_le_card fun k hk => ?_
  rw [List.map_append,List.toFinset_append]
  exact Finset.mem_union_left _ hk

theorem count_le_length : count number p ≤ p.length := by
  rw [← List.length_map number]
  exact List.toFinset_card_le _

theorem rounds_cons : rounds number size p (x :: xs) =
    (collect number size p x).2.toList ++ rounds number size (collect number size p x).1 xs := by
  rw [rounds,trace_cons,List.filterMap_cons,rounds]
  cases (collect number size p x).2 <;> rfl

theorem mem_of_mem_rounds (hp : p ∈ rounds number size q xs) (hx : x ∈ p) : x ∈ q ++ xs := by
  induction xs generalizing q with
  | nil => simp [rounds] at hp
  | cons y xs ih =>
    rw [List.append_cons]
    rw [rounds_cons,collect] at hp
    split at hp
    · exact ih hp
    · rcases List.mem_cons.mp hp with rfl | hp
      · exact List.mem_append_left _ hx
      · exact List.mem_append_right _ (ih hp)

/-- As long as there are not enough numbers, no round ends. -/
theorem rounds_of_short (h : count number (p ++ xs) < total size (p ++ xs)) :
    rounds number size p xs = [] ∧ final (collect number size) p xs = p ++ xs := by
  induction xs generalizing p with
  | nil => simp [rounds]
  | cons x xs ih =>
    rw [List.append_cons] at h
    have hle : count number (p ++ [x]) ≤ count number (p ++ [x] ++ xs) := count_le_append
    rw [total_append (by simp)] at h
    have hstep : collect number size p x = (p ++ [x],none) := if_pos (by omega)
    obtain ⟨hrounds,hfinal⟩ := ih (p := p ++ [x]) (by rw [total_append (by simp)]; exact h)
    constructor
    · rw [rounds_cons,hstep]
      exact hrounds
    · rw [final_cons,hstep,hfinal,List.append_assoc]
      rfl

theorem rounds_of_full (hshort : count number xs < total size (xs ++ [x]))
    (hfull : total size (xs ++ [x]) ≤ count number (xs ++ [x])) :
    rounds number size [] (xs ++ x :: ys) = (xs ++ [x]) :: rounds number size [] ys := by
  have hwait : rounds number size [] xs = [] ∧ final (collect number size) [] xs = xs := by
    by_cases hnil : xs = []
    · subst hnil
      exact ⟨rfl,rfl⟩
    · rw [total_append hnil] at hshort
      exact rounds_of_short (p := []) hshort
  have hstep : collect number size xs x = ([],some (xs ++ [x])) := if_neg (by omega)
  unfold rounds at hwait ⊢
  rw [trace_append,List.filterMap_append,hwait.1,hwait.2,trace_cons,hstep]
  rfl

end Count

section Last
variable {number size} {p : List α} {x y : α} {k : ℕ}

theorem lastNumbered_concat : lastNumbered number (p ++ [x]) k =
    if number x = k then some x else lastNumbered number p k := by
  unfold lastNumbered
  by_cases h : number x = k <;> simp [h]

theorem lastNumbered_eq_some : lastNumbered number p k = some x ↔
    number x = k ∧ ∃ a b, p = a ++ x :: b ∧ ∀ z ∈ b, number z ≠ k := by
  unfold lastNumbered
  rw [List.find?_eq_some_iff_append]
  refine and_congr (by simp) ⟨?_,?_⟩
  · rintro ⟨a,b,hp,ha⟩
    refine ⟨b.reverse,a.reverse,?_,fun z hz => ?_⟩
    · rw [← List.reverse_reverse p,hp]
      simp
    · simpa using ha z (List.mem_reverse.mp hz)
  · rintro ⟨a,b,rfl,hb⟩
    refine ⟨b.reverse,a.reverse,by simp,fun z hz => ?_⟩
    simpa using hb z (List.mem_reverse.mp hz)

theorem exists_lastNumbered (h : k ∈ p.map number) : ∃ x ∈ p, lastNumbered number p k = some x := by
  cases hx : lastNumbered number p k with
  | none =>
    obtain ⟨y,hy,hyk⟩ := List.mem_map.mp h
    have hnot := List.find?_eq_none.mp hx y (List.mem_reverse.mpr hy)
    exact absurd hyk (by simpa using hnot)
  | some x => exact ⟨x,List.mem_reverse.mp (List.mem_of_find?_eq_some hx),rfl⟩

theorem mem_of_lastNumbered (h : lastNumbered number p k = some x) : x ∈ p :=
  List.mem_reverse.mp (List.mem_of_find?_eq_some h)

variable [DecidableEq α]

/-- What a list has comes before what follows it. -/
theorem idxOf_append_lt {post : List α} (hx : x ∈ p) (hy : y ∉ p) :
    (p ++ post).idxOf x < (p ++ post).idxOf y := by
  have hlt := List.idxOf_lt_length_of_mem hx
  rw [List.idxOf_append_of_mem hx,List.idxOf_append_of_notMem hy]
  omega

/-- The last item with a number comes after every other one with it. -/
theorem idxOf_lt_of_lastNumbered (hp : p.Nodup) (hlast : lastNumbered number p k = some x) (hy : y ∈ p)
    (hyk : number y = k) (hne : y ≠ x) : p.idxOf y < p.idxOf x := by
  obtain ⟨-,a,b,rfl,hb⟩ := lastNumbered_eq_some.mp hlast
  obtain ⟨-,-,hdisj⟩ := List.nodup_append.mp hp
  have hxa : x ∉ a := fun hxa => hdisj x hxa x List.mem_cons_self rfl
  have hya : y ∈ a := by
    rcases List.mem_append.mp hy with hy | hy
    · exact hy
    · rcases List.mem_cons.mp hy with hy | hy
      · exact absurd hy hne
      · exact absurd hyk (hb y hy)
  exact idxOf_append_lt hya hxa

theorem idxOf_le_idxOf_last (hp : p.Nodup) (hlast : p.getLast? = some x) (hy : y ∈ p) : p.idxOf y ≤ p.idxOf x := by
  rw [List.getLast?_eq_getElem?] at hlast
  obtain ⟨hlt,rfl⟩ := List.getElem?_eq_some_iff.mp hlast
  have hle := List.idxOf_lt_length_of_mem hy
  rw [hp.idxOf_getElem]
  omega

end Last
end FDemo.Collector
