import Mathlib.Data.List.Infix

/-! # Walking through a tree of directories

A directory is the list of the names that lead to it from the top. A path is a
list of steps, each of which enters a directory or goes back up; above the top
is the top again. A path leaves a number of the directories that it starts in,
and then descends into some; it stays under its start when the directories it
descends into begin with the ones it left.
-/
namespace FDemo.DirectoryTree
variable {κ : Type*}

inductive Segment (κ : Type*) where
  | up
  | down (name : κ)
  deriving DecidableEq

def enter (dirs : List κ) : Segment κ → List κ
  | .up => dirs.dropLast
  | .down name => dirs ++ [name]

def walk (dirs : List κ) (path : List (Segment κ)) : List κ := path.foldl enter dirs

/-- The net effect of some steps: how many directories they leave, and which they enter after that. -/
structure Descent (κ : Type*) where
  left : ℕ := 0
  below : List κ := []

def Descent.enter (x : Descent κ) : Segment κ → Descent κ
  | .up => if x.below.isEmpty then ⟨x.left + 1,[]⟩ else ⟨x.left,x.below.dropLast⟩
  | .down name => ⟨x.left,x.below ++ [name]⟩

def Descent.apply (x : Descent κ) (dirs : List κ) : List κ := dirs.take (dirs.length - x.left) ++ x.below

def descent (path : List (Segment κ)) : Descent κ := path.foldl Descent.enter {}

/-- The path comes back into the directory where it starts. -/
def Descent.Returns (x : Descent κ) (dirs : List κ) : Prop := dirs.drop (dirs.length - x.left) <+: x.below

instance instDecidableReturns [DecidableEq κ] (x : Descent κ) (dirs : List κ) : Decidable (x.Returns dirs) :=
  inferInstanceAs (Decidable (_ <+: _))

theorem descent_concat (path : List (Segment κ)) (s : Segment κ) :
    descent (path ++ [s]) = (descent path).enter s := List.foldl_append

theorem walk_append (dirs : List κ) (xs ys : List (Segment κ)) :
    walk dirs (xs ++ ys) = walk (walk dirs xs) ys := List.foldl_append

theorem apply_enter (x : Descent κ) (dirs : List κ) (s : Segment κ) :
    (x.enter s).apply dirs = enter (x.apply dirs) s := by
  obtain ⟨left,below⟩ := x
  cases s with
  | down name => simp [Descent.enter,Descent.apply,enter]
  | up =>
    by_cases hbelow : below = []
    · subst hbelow
      have hlast : (dirs.take (dirs.length - left)).dropLast = dirs.take (dirs.length - (left + 1)) := by
        rw [List.dropLast_eq_take,List.take_take,List.length_take]
        congr 1
        omega
      simp [Descent.enter,Descent.apply,enter,hlast]
    · simp [Descent.enter,Descent.apply,enter,hbelow,List.dropLast_append_of_ne_nil]

theorem walk_eq (dirs : List κ) (path : List (Segment κ)) : walk dirs path = (descent path).apply dirs := by
  induction path using List.reverseRecOn with
  | nil => simp [walk,descent,Descent.apply]
  | append_singleton path s ih =>
    rw [walk_append,ih,descent_concat,apply_enter]
    rfl

/-- A path ends under the directory where it starts exactly when it comes back into it. -/
theorem prefix_walk_iff {dirs : List κ} {path : List (Segment κ)} :
    dirs <+: walk dirs path ↔ (descent path).Returns dirs := by
  have hsplit := List.take_append_drop (dirs.length - (descent path).left) dirs
  rw [walk_eq]
  unfold Descent.apply Descent.Returns
  nth_rewrite 1 [← hsplit]
  exact List.prefix_append_right_inj _

theorem left_descent_of_downs {path : List (Segment κ)} (h : .up ∉ path) : (descent path).left = 0 := by
  induction path using List.reverseRecOn with
  | nil => rfl
  | append_singleton path s ih =>
    simp only [List.mem_append,List.mem_singleton,not_or] at h
    rw [descent_concat]
    cases s with
    | up => exact absurd rfl h.2
    | down name => exact ih h.1

theorem returns_of_downs {dirs : List κ} {path : List (Segment κ)} (h : .up ∉ path) :
    (descent path).Returns dirs := by
  unfold Descent.Returns
  simp [left_descent_of_downs h]

end FDemo.DirectoryTree
