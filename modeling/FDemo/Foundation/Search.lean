import Mathlib.Data.List.Infix

/-! # The first occurrence of a word

`firstEnd d p` is where the first `d` in `p` ends. A search may begin behind
positions known not to begin an occurrence, and when `p` has none, the first
occurrence in a continuation of `p` ends behind `p`.
-/
namespace FDemo
variable {α : Type*} [DecidableEq α] {d p y : List α} {e : ℕ}

def firstEnd (d : List α) : List α → Option ℕ
  | [] => none
  | a :: p => if d <+: a :: p then some d.length else (firstEnd d p).map (· + 1)

theorem firstEnd_bounds (h : firstEnd d p = some e) : d.length ≤ e ∧ e ≤ p.length := by
  induction p generalizing e with
  | nil => exact absurd h (by simp [firstEnd])
  | cons a p ih =>
    by_cases hd : d <+: a :: p
    · obtain rfl : d.length = e := by simpa [firstEnd,hd] using h
      exact ⟨le_rfl,hd.length_le⟩
    · obtain ⟨i,hi,rfl⟩ := Option.map_eq_some_iff.mp (by simpa [firstEnd,hd] using h)
      obtain ⟨hlow,hhigh⟩ := ih hi
      exact ⟨Nat.le_succ_of_le hlow,Nat.succ_le_succ hhigh⟩

/-- An occurrence that begins earlier, thanks to what follows, would end later than one inside `p`. -/
theorem firstEnd_append (h : firstEnd d p = some e) (y : List α) : firstEnd d (p ++ y) = some e := by
  induction p generalizing e with
  | nil => exact absurd h (by simp [firstEnd])
  | cons a p ih =>
    by_cases hd : d <+: a :: p
    · have happ : d <+: a :: (p ++ y) := hd.trans (List.prefix_append _ y)
      simpa [firstEnd,hd,happ] using h
    · obtain ⟨i,hi,rfl⟩ := Option.map_eq_some_iff.mp (by simpa [firstEnd,hd] using h)
      have hbounds := firstEnd_bounds hi
      have happ : ¬ d <+: a :: (p ++ y) := fun happ =>
        hd (List.prefix_of_prefix_length_le happ (List.prefix_append (a :: p) y)
          (by rw [List.length_cons]; omega))
      simp [firstEnd,happ,ih hi]

theorem firstEnd_append_of_none (hd : d ≠ []) (hp : firstEnd d p = none) (h : firstEnd d (p ++ y) = some e) :
    p.length < e := by
  induction p generalizing e with
  | nil => exact (List.length_pos_of_ne_nil hd).trans_le (firstEnd_bounds h).1
  | cons a p ih =>
    by_cases hfront : d <+: a :: p
    · exact absurd hp (by simp [firstEnd,hfront])
    by_cases happ : d <+: a :: (p ++ y)
    · obtain rfl : d.length = e := by simpa [firstEnd,happ] using h
      by_contra hle
      exact hfront (List.prefix_of_prefix_length_le happ (List.prefix_append (a :: p) y) (Nat.not_lt.mp hle))
    · obtain ⟨i,hi,rfl⟩ := Option.map_eq_some_iff.mp (by simpa [firstEnd,happ] using h)
      have hp' : firstEnd d p = none := by simpa [firstEnd,hfront] using hp
      exact Nat.succ_lt_succ (ih hp' hi)

theorem not_prefix_of_firstEnd_eq_none (hd : d ≠ []) (h : firstEnd d p = none) (j : ℕ) : ¬ d <+: p.drop j := by
  induction p generalizing j with
  | nil => simpa using hd
  | cons a p ih =>
    by_cases hfront : d <+: a :: p
    · exact absurd h (by simp [firstEnd,hfront])
    · cases j with
      | zero => exact hfront
      | succ j => exact ih (by simpa [firstEnd,hfront] using h) j

theorem firstEnd_of_short (hp : p.length < d.length) : firstEnd d p = none := by
  rcases hfirst : firstEnd d p with _ | e
  · rfl
  · have := firstEnd_bounds hfirst
    omega

theorem firstEnd_at_front (hd : d ≠ []) (h : d <+: p) : firstEnd d p = some d.length := by
  cases p with
  | nil => exact absurd (List.prefix_nil.mp h) hd
  | cons a p => simp [firstEnd,h]

/-- Positions that begin no occurrence can be skipped. -/
theorem firstEnd_drop {k : ℕ} (hk : k ≤ p.length) (h : ∀ j < k, ¬ d <+: p.drop j) :
    firstEnd d p = (firstEnd d (p.drop k)).map (· + k) := by
  induction k generalizing p with
  | zero => simp
  | succ k ih =>
    cases p with
    | nil => simp at hk
    | cons a p =>
      have hfront : ¬ d <+: a :: p := h 0 (Nat.zero_lt_succ k)
      have hrest := ih (Nat.le_of_succ_le_succ hk) (fun j hj => h (j + 1) (Nat.succ_lt_succ hj))
      simp only [firstEnd,hfront,↓reduceIte,hrest,Option.map_map,List.drop_succ_cons]
      rfl

end FDemo
