import Mathlib.Data.List.Induction
import Mathlib.Order.Bounds.Basic
import Mathlib.Tactic.Ring

/-! # Alarms

An alarm goes off at a deadline and from then on after every period, some number of
times or for ever. It is looked at now and then. When the deadline is over it rings,
once for all the points of its schedule that went by, and the deadline becomes the
first point to come.
-/
namespace FDemo

structure Alarm where
  deadline : ℕ
  period : ℕ
  /-- How often the alarm still rings, if not for ever. -/
  left : Option ℕ

namespace Alarm

/-- The first point after `now` of the schedule from `d` on. -/
def next (d p now : ℕ) : ℕ := if now < d then d else d + ((now - d) / p + 1) * p

/-- The alarm after it rings. -/
def advance (a : Alarm) (now : ℕ) : Option Alarm :=
  if a.left = some 1 then none else some ⟨next a.deadline a.period now,a.period,a.left.map (· - 1)⟩

/-- A look at an alarm, and how often it has rung. -/
def look : Option Alarm × ℕ → ℕ → Option Alarm × ℕ
  | (none,n), _ => (none,n)
  | (some a,n), now => if a.deadline ≤ now then (a.advance now,n + 1) else (some a,n)

def looks (a : Alarm) (seen : List ℕ) : Option Alarm × ℕ := seen.foldl look (some a,0)

/-- The points of the schedule that come after all looks. -/
def toCome (a : Alarm) (seen : List ℕ) : Set ℕ := {x | (∃ k, x = a.deadline + k * a.period) ∧ ∀ u ∈ seen, u < x}

theorem looks_append (a : Alarm) (seen : List ℕ) (now : ℕ) : looks a (seen ++ [now]) = look (looks a seen) now := by
  rw [looks,List.foldl_append]
  rfl

theorem lt_next {p : ℕ} (hp : 0 < p) (d now : ℕ) : now < next d p now := by
  rw [next]
  split_ifs with h
  · exact h
  · have := Nat.lt_div_mul_add (a := now - d) hp
    rw [Nat.add_mul,Nat.one_mul]
    omega

theorem mem_toCome_append {a : Alarm} {seen : List ℕ} {now x : ℕ} :
    x ∈ a.toCome (seen ++ [now]) ↔ x ∈ a.toCome seen ∧ now < x := by
  simp [toCome,or_imp,forall_and,and_assoc]

theorem isLeast_next {a : Alarm} {seen : List ℕ} {d : ℕ} (hp : 0 < a.period) (hd : IsLeast (a.toCome seen) d)
    (now : ℕ) : IsLeast (a.toCome (seen ++ [now])) (next d a.period now) := by
  obtain ⟨⟨⟨k₀,hk₀⟩,hseen⟩,hleast⟩ := hd
  have hlt := lt_next hp d now
  refine ⟨mem_toCome_append.mpr ⟨⟨?_,fun u hu => ?_⟩,hlt⟩,fun x hx => ?_⟩
  · rw [next]
    split_ifs
    · exact ⟨k₀,hk₀⟩
    · exact ⟨k₀ + ((now - d) / a.period + 1),by rw [hk₀]; ring⟩
  · have hle : d ≤ next d a.period now := by
      rw [next]
      split_ifs <;> omega
    exact (hseen u hu).trans_le hle
  · obtain ⟨hx,hnow⟩ := mem_toCome_append.mp hx
    have hdx := hleast hx
    rw [next]
    split_ifs with h
    · exact hdx
    · obtain ⟨⟨k,rfl⟩,-⟩ := hx
      have hk : (now - d) / a.period < k - k₀ := by
        rw [Nat.div_lt_iff_lt_mul hp,Nat.sub_mul]
        omega
      have hle := Nat.mul_le_mul_right a.period (Nat.succ_le_of_lt hk)
      rw [Nat.sub_mul,Nat.succ_eq_add_one] at hle
      omega

/-- The state of the alarm after some looks: it has rung out, or waits for the first point to come. -/
theorem looks_spec (a : Alarm) (hp : 0 < a.period) (hleft : a.left ≠ some 0) (seen : List ℕ) :
    match looks a seen with
    | (none,n) => a.left = some n
    | (some b,n) => b.period = a.period ∧ b.left = a.left.map (· - n) ∧ IsLeast (a.toCome seen) b.deadline ∧
        ∀ m, a.left = some m → n < m := by
  induction seen using List.reverseRecOn with
  | nil =>
    refine ⟨rfl,by simp,⟨⟨⟨0,by simp⟩,by simp⟩,?_⟩,fun m hm => ?_⟩
    · rintro x ⟨⟨k,rfl⟩,-⟩
      exact Nat.le_add_right _ _
    · exact Nat.pos_of_ne_zero fun h => hleft (h ▸ hm)
  | append_singleton seen now ih =>
    rw [looks_append]
    generalize looks a seen = x at ih
    obtain ⟨_ | b,n⟩ := x
    · exact ih
    · obtain ⟨hperiod,hl,hleast,hlt⟩ := ih
      have hnext := isLeast_next hp hleast now
      rw [look]
      split_ifs with hdue
      · rw [advance]
        by_cases hlast : b.left = some 1
        · simp only [if_pos hlast]
          rw [hl,Option.map_eq_some_iff] at hlast
          obtain ⟨m,hm,hone⟩ := hlast
          have := hlt m hm
          rw [hm]
          exact congrArg some (by omega)
        · simp only [if_neg hlast]
          refine ⟨hperiod,?_,hperiod ▸ hnext,fun m hm => ?_⟩
          · rw [hl,Option.map_map]
            rfl
          · have := hlt m hm
            rw [hl,hm,Option.map_some,Option.some.injEq] at hlast
            omega
      · refine ⟨hperiod,hl,?_,hlt⟩
        rwa [next,if_pos (not_le.mp hdue)] at hnext

/-- An alarm rings when a point of its schedule went by since the earlier looks, until it has rung out. -/
theorem rings_iff (a : Alarm) (hp : 0 < a.period) (hleft : a.left ≠ some 0) (seen : List ℕ) (now : ℕ) :
    (looks a (seen ++ [now])).2 = (looks a seen).2 + 1 ↔
      (∃ x ∈ a.toCome seen, x ≤ now) ∧ ∀ m, a.left = some m → (looks a seen).2 < m := by
  have hspec := looks_spec a hp hleft seen
  rw [looks_append]
  generalize looks a seen = x at hspec ⊢
  obtain ⟨_ | b,n⟩ := x
  · simp [look,hspec]
  · obtain ⟨-,-,hleast,hlt⟩ := hspec
    have hiff : b.deadline ≤ now ↔ ∃ x ∈ a.toCome seen, x ≤ now :=
      ⟨fun h => ⟨_,hleast.1,h⟩,fun ⟨x,hx,hle⟩ => (hleast.2 hx).trans hle⟩
    rw [look,← hiff]
    split_ifs with hdue
    · exact iff_of_true rfl ⟨hdue,hlt⟩
    · exact iff_of_false (Nat.succ_ne_self n).symm fun h => hdue h.1

end Alarm
end FDemo
