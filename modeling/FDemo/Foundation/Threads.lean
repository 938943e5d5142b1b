import FDemo.Foundation.Mealy

/-! # Calls that take turns on a shared state

Each call walks through local states of its own, and in a turn one call takes its
next atomic step on the shared state. A step may hand out a result. A schedule is
the list of turns; what holds at the start and survives every turn of a certain
kind holds after every schedule of such turns.
-/
namespace FDemo.Threads
open Mealy
variable {ι σ τ ω : Type*} [DecidableEq ι]

structure Config (ι σ τ : Type*) where
  shared : σ
  calls : ι → τ

def turn (step : σ → τ → σ × τ × Option ω) (c : Config ι σ τ) (i : ι) : Config ι σ τ × Option ω :=
  let r := step c.shared (c.calls i)
  (⟨r.1,Function.update c.calls i r.2.1⟩,r.2.2)

/-- A condition on every turn of a schedule and the turns before it. -/
def EachTurn (P : List ι → ι → Prop) (schedule : List ι) : Prop :=
  ∀ pre i post, schedule = pre ++ i :: post → P pre i

omit [DecidableEq ι] in
theorem eachTurn_concat {P : List ι → ι → Prop} {schedule : List ι} {i : ι} :
    EachTurn P (schedule ++ [i]) ↔ EachTurn P schedule ∧ P schedule i := by
  constructor
  · exact fun h => ⟨fun pre j post hsplit => h pre j (post ++ [i]) (by simp [hsplit]),h schedule i [] rfl⟩
  · rintro ⟨hbefore,hlast⟩ pre j post hsplit
    obtain rfl | ⟨post',k,rfl⟩ := List.eq_nil_or_concat' post
    · obtain ⟨rfl,hj⟩ := List.append_inj' hsplit rfl
      obtain rfl := List.singleton_inj.mp hj
      exact hlast
    · rw [← List.cons_append,← List.append_assoc] at hsplit
      exact hbefore pre j post' (List.append_inj' hsplit rfl).1

omit [DecidableEq ι] in
theorem eachTurn_iff_take {P : List ι → ι → Prop} {schedule : List ι} :
    (∀ n : Fin schedule.length, P (schedule.take n) (schedule.get n)) ↔ EachTurn P schedule := by
  constructor
  · rintro h pre i post rfl
    simpa using h ⟨pre.length,by simp⟩
  · intro h n
    exact h _ _ (schedule.drop (n + 1)) (by simp)

instance decidableEachTurn {P : List ι → ι → Prop} [∀ pre i, Decidable (P pre i)] (schedule : List ι) :
    Decidable (EachTurn P schedule) := decidable_of_iff _ eachTurn_iff_take

section Schedule
variable (step : σ → τ → σ × τ × Option ω) (c : Config ι σ τ)

abbrev run (schedule : List ι) : Config ι σ τ := final (turn step) c schedule

/-- The results handed out, each with its call, in the order of the turns. -/
def results (schedule : List ι) : List (ι × ω) :=
  (trace (turn step) c schedule).filterMap fun x => x.2.map fun o => (x.1,o)

@[simp] theorem results_nil : results step c [] = [] := rfl

theorem run_concat (schedule : List ι) (i : ι) :
    run step c (schedule ++ [i]) = (turn step (run step c schedule) i).1 := final_append _ _ _ _

theorem results_concat (schedule : List ι) (i : ι) : results step c (schedule ++ [i]) =
    results step c schedule ++ ((turn step (run step c schedule) i).2.map fun o => (i,o)).toList := by
  unfold results
  rw [trace_append,List.filterMap_append,trace_cons,trace_nil]
  cases h : (turn step (final (turn step) c schedule) i).2 <;> simp

/-- Every turn of the schedule meets a condition on the configuration before it. -/
def Throughout (cond : Config ι σ τ → ι → Prop) (schedule : List ι) : Prop :=
  EachTurn (fun pre i => cond (run step c pre) i) schedule

theorem invariant_run {Inv : List ι → Config ι σ τ → List (ι × ω) → Prop} {cond : Config ι σ τ → ι → Prop}
    (hstart : Inv [] c [])
    (hturn : ∀ schedule c rs i, Inv schedule c rs → cond c i → Inv (schedule ++ [i]) (turn step c i).1
      (rs ++ ((turn step c i).2.map fun o => (i,o)).toList))
    {schedule : List ι} (h : Throughout step c cond schedule) :
    Inv schedule (run step c schedule) (results step c schedule) := by
  induction schedule using List.reverseRecOn with
  | nil => exact hstart
  | append_singleton schedule i ih =>
    obtain ⟨hbefore,hcond⟩ := eachTurn_concat.mp h
    rw [run_concat,results_concat]
    exact hturn schedule _ _ i (ih hbefore) hcond

end Schedule

section Turn
variable (step : σ → τ → σ × τ × Option ω) (c : Config ι σ τ) (i : ι)

@[simp] theorem turn_shared : (turn step c i).1.shared = (step c.shared (c.calls i)).1 := rfl
@[simp] theorem turn_result : (turn step c i).2 = (step c.shared (c.calls i)).2.2 := rfl
@[simp] theorem turn_calls_self : (turn step c i).1.calls i = (step c.shared (c.calls i)).2.1 := by
  simp [turn]
theorem turn_calls_ne {j : ι} (h : j ≠ i) : (turn step c i).1.calls j = c.calls j :=
  Function.update_of_ne h _ _

end Turn

section Progress
variable {step : σ → τ → σ × τ × Option ω} {P : ι → ℕ → τ → Prop}

/-- How far a call has come is told by the number of its turns, when every step takes it one further. -/
theorem calls_run (hstep : ∀ i n s t, P i n t → P i (n + 1) (step s t).2.1) {c : Config ι σ τ}
    (hstart : ∀ i, P i 0 (c.calls i)) (schedule : List ι) (i : ι) :
    P i (schedule.count i) ((run step c schedule).calls i) := by
  induction schedule using List.reverseRecOn with
  | nil => exact hstart i
  | append_singleton schedule j ih =>
    rw [run_concat,List.count_append]
    by_cases hij : i = j
    · subst hij
      rw [turn_calls_self,List.count_singleton_self]
      exact hstep i _ _ _ ih
    · rw [turn_calls_ne step _ j hij,List.count_singleton,if_neg (by simpa using Ne.symm hij),Nat.add_zero]
      exact ih

end Progress
end FDemo.Threads
