import Mathlib.Data.List.Basic

/-! # Interleavings of two lists

An interleaving keeps the order of each list. A prefix of an interleaving
interleaves prefixes, and elements that tell the two lists apart recover each of
them as a filter.
-/
namespace FDemo
variable {α : Type*}

/-- `zs` merges `xs` and `ys` and keeps the order of each. -/
inductive Interleave : List α → List α → List α → Prop where
  | nil : Interleave [] [] []
  | left {x : α} {xs ys zs : List α} : Interleave xs ys zs → Interleave (x :: xs) ys (x :: zs)
  | right {y : α} {xs ys zs : List α} : Interleave xs ys zs → Interleave xs (y :: ys) (y :: zs)

namespace Interleave

theorem symm {xs ys zs : List α} (h : Interleave xs ys zs) : Interleave ys xs zs := by
  induction h with
  | nil => exact .nil
  | left _ ih => exact .right ih
  | right _ ih => exact .left ih

theorem perm {xs ys zs : List α} (h : Interleave xs ys zs) : (xs ++ ys).Perm zs := by
  induction h with
  | nil => exact .nil
  | left _ ih => exact ih.cons _
  | right _ ih => exact List.perm_middle.trans (ih.cons _)

theorem head?_eq {xs ys zs : List α} (h : Interleave xs ys zs) : zs.head? = xs.head? ∨ zs.head? = ys.head? := by
  cases h with
  | nil => exact Or.inl rfl
  | left _ => exact Or.inl rfl
  | right _ => exact Or.inr rfl

/-- An interleaving of two images is the image of an interleaving that keeps the sides apart. -/
theorem exists_sum {β γ : Type*} {f : β → α} {g : γ → α} {xs : List β} {ys : List γ} {zs : List α}
    (h : Interleave (xs.map f) (ys.map g) zs) :
    ∃ order, Interleave (xs.map Sum.inl) (ys.map Sum.inr) order ∧ zs = order.map (Sum.elim f g) := by
  generalize hxs : xs.map f = fs at h
  generalize hys : ys.map g = gs at h
  induction h generalizing xs ys with
  | nil =>
    obtain rfl := List.map_eq_nil_iff.mp hxs
    obtain rfl := List.map_eq_nil_iff.mp hys
    exact ⟨[],.nil,rfl⟩
  | left _ ih =>
    obtain ⟨x,xs,rfl,rfl,htail⟩ := List.map_eq_cons_iff.mp hxs
    obtain ⟨order,horder,rfl⟩ := ih htail hys
    exact ⟨Sum.inl x :: order,.left horder,rfl⟩
  | right _ ih =>
    obtain ⟨y,ys,rfl,rfl,htail⟩ := List.map_eq_cons_iff.mp hys
    obtain ⟨order,horder,rfl⟩ := ih hxs htail
    exact ⟨Sum.inr y :: order,.right horder,rfl⟩

theorem eq_of_nil_left {ys zs : List α} (h : Interleave [] ys zs) : zs = ys := by
  induction ys generalizing zs with
  | nil => cases h; rfl
  | cons y ys ih =>
    cases h with
    | right h => rw [ih h]

theorem eq_of_nil_right {xs zs : List α} (h : Interleave xs [] zs) : zs = xs := h.symm.eq_of_nil_left

theorem nil_right (xs : List α) : Interleave xs [] xs := by
  induction xs with
  | nil => exact .nil
  | cons x xs ih => exact .left ih

theorem append {xs xs' ys ys' zs zs' : List α} (h : Interleave xs ys zs) (h' : Interleave xs' ys' zs') :
    Interleave (xs ++ xs') (ys ++ ys') (zs ++ zs') := by
  induction h with
  | nil => exact h'
  | left _ ih => exact .left ih
  | right _ ih => exact .right ih

theorem split {xs ys pre post : List α} (h : Interleave xs ys (pre ++ post)) :
    ∃ xs₁ xs₂ ys₁ ys₂, xs = xs₁ ++ xs₂ ∧ ys = ys₁ ++ ys₂ ∧ Interleave xs₁ ys₁ pre ∧ Interleave xs₂ ys₂ post := by
  induction pre generalizing xs ys with
  | nil => exact ⟨[],xs,[],ys,rfl,rfl,.nil,h⟩
  | cons a pre ih =>
    cases h with
    | left h =>
      obtain ⟨xs₁,xs₂,ys₁,ys₂,rfl,rfl,h₁,h₂⟩ := ih h
      exact ⟨a :: xs₁,xs₂,ys₁,ys₂,rfl,rfl,.left h₁,h₂⟩
    | right h =>
      obtain ⟨xs₁,xs₂,ys₁,ys₂,rfl,rfl,h₁,h₂⟩ := ih h
      exact ⟨xs₁,xs₂,a :: ys₁,ys₂,rfl,rfl,.right h₁,h₂⟩

theorem filter_left {xs ys zs : List α} (h : Interleave xs ys zs) {p : α → Bool}
    (hx : ∀ x ∈ xs, p x = true) (hy : ∀ y ∈ ys, p y = false) : zs.filter p = xs := by
  induction h with
  | nil => rfl
  | left _ ih =>
    rw [List.filter_cons_of_pos (hx _ List.mem_cons_self),ih (fun x hm => hx x (List.mem_cons_of_mem _ hm)) hy]
  | right _ ih =>
    rw [List.filter_cons_of_neg (by simp [hy _ List.mem_cons_self]),
      ih hx (fun y hm => hy y (List.mem_cons_of_mem _ hm))]

end Interleave
end FDemo
