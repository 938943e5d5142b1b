import Mathlib.Data.List.Basic
import Mathlib.Tactic.Common

/-! # Editing a list by position

An edit that is repeated at one position turns into one edit of a range, as long
as the range lies inside the list. The elements that a test accepts are numbered
by their place among the accepted ones; erasing one of them from the list erases
it from the accepted ones as well.
-/
namespace FDemo
variable {α : Type*}

section Range

theorem insertIdx_length_append (pre post : List α) (a : α) :
    (pre ++ post).insertIdx pre.length a = pre ++ a :: post := by
  induction pre with
  | nil => rfl
  | cons x pre ih => simp [ih]

theorem eraseIdx_length_append (pre post : List α) (a : α) :
    (pre ++ a :: post).eraseIdx pre.length = pre ++ post := by
  induction pre with
  | nil => rfl
  | cons x pre ih => simp [ih]

theorem exists_split_at {l : List α} {n : ℕ} (h : n ≤ l.length) :
    ∃ pre post, l = pre ++ post ∧ pre.length = n :=
  ⟨l.take n,l.drop n,(List.take_append_drop n l).symm,List.length_take_of_le h⟩

theorem insertIdx_eq_concat_iff {l : List α} {n : ℕ} (h : n ≤ l.length) {a : α} :
    (∃ b, l.insertIdx n a = l ++ [b]) ↔ ∀ x ∈ l.drop n, x = a := by
  obtain ⟨pre,post,rfl,rfl⟩ := exists_split_at h
  simp only [insertIdx_length_append,List.append_assoc,List.append_cancel_left_eq,List.drop_left]
  clear h
  induction post generalizing a with
  | nil => simp
  | cons y post ih =>
    simp only [List.cons_append,List.cons.injEq,List.forall_mem_cons,exists_and_left]
    constructor
    · rintro ⟨rfl,b,hb⟩
      exact ⟨rfl,ih.mp ⟨b,hb⟩⟩
    · rintro ⟨rfl,hall⟩
      exact ⟨rfl,ih.mpr hall⟩

end Range

section Accepted
variable (p : α → Bool)

/-- The places of the accepted elements, in increasing order. -/
def acceptedAt (l : List α) : List ℕ := (List.range l.length).filter fun i => l[i]?.any p

@[simp] theorem acceptedAt_nil : acceptedAt p [] = [] := rfl

theorem acceptedAt_cons (a : α) (l : List α) :
    acceptedAt p (a :: l) = (if p a then [0] else []) ++ (acceptedAt p l).map Nat.succ := by
  unfold acceptedAt
  rw [List.length_cons,List.range_succ_eq_map,List.filter_cons,List.filter_map]
  simp only [List.getElem?_cons_zero,Option.any_some]
  split <;> rfl

@[simp] theorem length_acceptedAt (l : List α) : (acceptedAt p l).length = (l.filter p).length := by
  induction l with
  | nil => rfl
  | cons a l ih =>
    rw [acceptedAt_cons,List.filter_cons]
    by_cases ha : p a = true <;> simp [ha,ih]

/-- The accepted elements are found at their places. -/
theorem filterMap_acceptedAt (l : List α) : (acceptedAt p l).filterMap (fun i => l[i]?) = l.filter p := by
  induction l with
  | nil => rfl
  | cons a l ih =>
    rw [acceptedAt_cons,List.filterMap_append,List.filterMap_map]
    by_cases ha : p a = true
    · simpa [ha,Function.comp_def] using ih
    · simpa [ha,Function.comp_def] using ih

theorem mem_acceptedAt {l : List α} {i : ℕ} : i ∈ acceptedAt p l ↔ ∃ x, l[i]? = some x ∧ p x = true := by
  unfold acceptedAt
  rw [List.mem_filter,List.mem_range,Option.any_eq_true]
  constructor
  · exact fun h => h.2
  · rintro ⟨x,hx,hp⟩
    exact ⟨(List.getElem?_eq_some_iff.mp hx).1,x,hx,hp⟩

theorem acceptedAt_map {β : Type*} (f : β → α) (l : List β) : acceptedAt p (l.map f) = acceptedAt (p ∘ f) l := by
  unfold acceptedAt
  rw [List.length_map]
  apply List.filter_congr
  intro i _
  rw [List.getElem?_map,Option.any_map]
  rfl

variable {p} in
/-- Two tests accept at the same places exactly when they agree on the elements. -/
theorem acceptedAt_eq_iff {q : α → Bool} {l : List α} :
    acceptedAt p l = acceptedAt q l ↔ ∀ x ∈ l, (p x = true ↔ q x = true) := by
  constructor
  · intro h x hx
    obtain ⟨i,hi⟩ := List.mem_iff_getElem?.mp hx
    have hplace : ∀ r : α → Bool, i ∈ acceptedAt r l ↔ r x = true := by
      intro r
      rw [mem_acceptedAt,hi]
      simp
    rw [← hplace p,← hplace q,h]
  · intro h
    apply List.filter_congr
    intro i hi
    rw [List.getElem?_eq_getElem (List.mem_range.mp hi),Option.any_some,Option.any_some]
    exact Bool.eq_iff_iff.mpr (h _ (List.getElem_mem _))

variable {p} in
/-- Erasing the `k`-th accepted element erases number `k` from the accepted ones. -/
theorem filter_eraseIdx_acceptedAt {l : List α} {k i : ℕ} (h : (acceptedAt p l)[k]? = some i) :
    i < l.length ∧ l[i]? = (l.filter p)[k]? ∧ (l.eraseIdx i).filter p = (l.filter p).eraseIdx k := by
  induction l generalizing k i with
  | nil => simp at h
  | cons a l ih =>
    rw [acceptedAt_cons] at h
    by_cases ha : p a = true
    · rw [if_pos ha] at h
      cases k with
      | zero =>
        obtain rfl : 0 = i := by simpa using h
        simp [ha]
      | succ k =>
        obtain ⟨j,hj,rfl⟩ : ∃ j, (acceptedAt p l)[k]? = some j ∧ j + 1 = i := by simpa using h
        obtain ⟨hlt,hget,herase⟩ := ih hj
        exact ⟨Nat.succ_lt_succ hlt,by simpa [ha] using hget,by simpa [ha] using herase⟩
    · rw [if_neg ha,List.nil_append] at h
      obtain ⟨j,hj,rfl⟩ : ∃ j, (acceptedAt p l)[k]? = some j ∧ j + 1 = i := by simpa using h
      obtain ⟨hlt,hget,herase⟩ := ih hj
      exact ⟨Nat.succ_lt_succ hlt,by simpa [ha] using hget,by simpa [ha] using herase⟩

end Accepted
end FDemo
