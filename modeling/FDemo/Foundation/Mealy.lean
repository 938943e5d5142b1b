import Mathlib.Data.Finmap
import Mathlib.Data.List.DropRight

/-! # Step functions with outputs

A deterministic machine is a step function that consumes one event and returns
the next state with one output. `final` and `trace` run it over a list of
events. A machine on one entry lifts to a machine on a finite map of entries,
where each event addresses the entry of its own key; every key then sees only
its own events.
-/
namespace FDemo.Mealy
variable {σ τ ε ω κ : Type*}

def final (step : σ → ε → σ × ω) (s : σ) (es : List ε) : σ := es.foldl (fun s e => (step s e).1) s

def trace (step : σ → ε → σ × ω) : σ → List ε → List (ε × ω)
  | _, [] => []
  | s, e :: es => (e,(step s e).2) :: trace step (step s e).1 es

section Run
variable (step : σ → ε → σ × ω)

@[simp] theorem final_nil (s : σ) : final step s [] = s := rfl
@[simp] theorem final_cons (s : σ) (e : ε) (es : List ε) :
    final step s (e :: es) = final step (step s e).1 es := rfl
@[simp] theorem trace_nil (s : σ) : trace step s [] = [] := rfl
@[simp] theorem trace_cons (s : σ) (e : ε) (es : List ε) :
    trace step s (e :: es) = (e,(step s e).2) :: trace step (step s e).1 es := rfl

theorem final_append (s : σ) (xs ys : List ε) :
    final step s (xs ++ ys) = final step (final step s xs) ys := List.foldl_append

theorem trace_append (s : σ) (xs ys : List ε) :
    trace step s (xs ++ ys) = trace step s xs ++ trace step (final step s xs) ys := by
  induction xs generalizing s with
  | nil => rfl
  | cons e xs ih => simp only [List.cons_append,trace_cons,final_cons,ih]

@[simp] theorem trace_map_fst (s : σ) (es : List ε) : (trace step s es).map Prod.fst = es := by
  induction es generalizing s with
  | nil => rfl
  | cons e es ih => simp only [trace_cons,List.map_cons,ih]

theorem mem_trace {s : σ} {es : List ε} {x : ε × ω} (hx : x ∈ trace step s es) :
    ∃ pre post, es = pre ++ x.1 :: post ∧ x.2 = (step (final step s pre) x.1).2 := by
  induction es generalizing s with
  | nil => simp at hx
  | cons e es ih =>
    rcases List.mem_cons.mp hx with rfl | hx
    · exact ⟨[],es,rfl,rfl⟩
    · obtain ⟨pre,post,rfl,ho⟩ := ih hx
      exact ⟨e :: pre,post,rfl,ho⟩

theorem final_map {step' : τ → ε → τ × ω} {φ : σ → τ}
    (h : ∀ s e, step' (φ s) e = (φ (step s e).1,(step s e).2)) (s : σ) (es : List ε) :
    final step' (φ s) es = φ (final step s es) := by
  induction es generalizing s with
  | nil => rfl
  | cons e es ih => simp only [final_cons,h,ih]

theorem trace_map {step' : τ → ε → τ × ω} {φ : σ → τ}
    (h : ∀ s e, step' (φ s) e = (φ (step s e).1,(step s e).2)) (s : σ) (es : List ε) :
    trace step' (φ s) es = trace step s es := by
  induction es generalizing s with
  | nil => rfl
  | cons e es ih => simp only [trace_cons,h,ih]

end Run

section Keyed
variable [DecidableEq κ]

def setEntry (m : Finmap fun _ : κ => σ) (k : κ) : Option σ → Finmap fun _ : κ => σ
  | none => m.erase k
  | some a => m.insert k a

@[simp] theorem lookup_setEntry (m : Finmap fun _ : κ => σ) (k : κ) (a : Option σ) :
    (setEntry m k a).lookup k = a := by
  cases a with
  | none => exact Finmap.lookup_erase k m
  | some a => exact Finmap.lookup_insert m

theorem lookup_setEntry_ne (m : Finmap fun _ : κ => σ) {j k : κ} (h : j ≠ k) (a : Option σ) :
    (setEntry m k a).lookup j = m.lookup j := by
  cases a with
  | none => exact Finmap.lookup_erase_ne h
  | some a => exact Finmap.lookup_insert_of_ne m h

theorem setEntry_insert (m : Finmap fun _ : κ => σ) (k : κ) (b : σ) (a : Option σ) :
    setEntry (m.insert k b) k a = setEntry m k a := by
  apply Finmap.ext_lookup
  intro j
  by_cases hj : j = k
  · subst hj
    rw [lookup_setEntry,lookup_setEntry]
  · rw [lookup_setEntry_ne _ hj,lookup_setEntry_ne _ hj,Finmap.lookup_insert_of_ne _ hj]

theorem setEntry_eq_self_iff {m : Finmap fun _ : κ => σ} {k : κ} {a : Option σ} :
    setEntry m k a = m ↔ m.lookup k = a := by
  constructor
  · intro h
    rw [← h,lookup_setEntry]
  · intro h
    apply Finmap.ext_lookup
    intro j
    by_cases hj : j = k
    · rw [hj,lookup_setEntry,h]
    · exact lookup_setEntry_ne m hj a

/-- The machine on a finite map whose events address the entry of their key. -/
def keyed (key : ε → κ) (step : Option σ → ε → Option σ × ω)
    (m : Finmap fun _ : κ => σ) (e : ε) : (Finmap fun _ : κ => σ) × ω :=
  let r := step (m.lookup (key e)) e
  (setEntry m (key e) r.1,r.2)

variable (key : ε → κ) (step : Option σ → ε → Option σ × ω)

theorem keyed_lookup_self {k : κ} (m : Finmap fun _ : κ => σ) {e : ε} (he : key e = k) :
    (keyed key step m e).1.lookup k = (step (m.lookup k) e).1 := by
  subst he
  exact lookup_setEntry m (key e) _

theorem keyed_lookup_ne {k : κ} (m : Finmap fun _ : κ => σ) {e : ε} (he : key e ≠ k) :
    (keyed key step m e).1.lookup k = m.lookup k := lookup_setEntry_ne m (Ne.symm he) _

theorem final_keyed_lookup (k : κ) (m : Finmap fun _ : κ => σ) (es : List ε) :
    (final (keyed key step) m es).lookup k =
      final step (m.lookup k) (es.filter fun e => decide (key e = k)) := by
  induction es generalizing m with
  | nil => rfl
  | cons e es ih =>
    rw [final_cons,ih]
    by_cases he : key e = k
    · rw [List.filter_cons_of_pos (by simpa using he),final_cons,keyed_lookup_self key step m he]
    · rw [List.filter_cons_of_neg (by simpa using he),keyed_lookup_ne key step m he]

/-- The outputs of a key's events depend only on the events with that key. -/
theorem trace_keyed_filter (k : κ) (m : Finmap fun _ : κ => σ) (es : List ε) :
    (trace (keyed key step) m es).filter (fun x => decide (key x.1 = k)) =
      trace step (m.lookup k) (es.filter fun e => decide (key e = k)) := by
  induction es generalizing m with
  | nil => rfl
  | cons e es ih =>
    rw [trace_cons]
    by_cases he : key e = k
    · rw [List.filter_cons_of_pos (by simpa using he),List.filter_cons_of_pos (by simpa using he),
        trace_cons,ih,keyed_lookup_self key step m he]
      subst he
      rfl
    · rw [List.filter_cons_of_neg (by simpa using he),List.filter_cons_of_neg (by simpa using he),ih,
        keyed_lookup_ne key step m he]

end Keyed

section Epoch
variable (step : Option σ → ε → Option σ × ω) (done : ω → Bool)

/-- The events after the last one whose output closed the entry. -/
def epoch (t : List (ε × ω)) : List (ε × ω) := t.rtakeWhile (fun x => !done x.2)

theorem not_done_of_mem_epoch {t : List (ε × ω)} {x : ε × ω} (hx : x ∈ epoch done t) :
    done x.2 = false := by
  simpa using List.mem_rtakeWhile_imp hx

/-- When a closing output removes the entry, the entry and its outputs are those of a fresh run
over the events since the last closing one. -/
theorem final_epoch (hdone : ∀ s e, done (step s e).2 = true → (step s e).1 = none) (es : List ε) :
    final step none es = final step none ((epoch done (trace step none es)).map Prod.fst) ∧
    trace step none ((epoch done (trace step none es)).map Prod.fst) = epoch done (trace step none es) := by
  induction es using List.reverseRecOn with
  | nil => exact ⟨rfl,rfl⟩
  | append_singleton es e ih =>
    obtain ⟨hf,ht⟩ := ih
    simp only [trace_append,final_append,trace_cons,trace_nil,final_cons,final_nil]
    cases hd : done (step (final step none es) e).2 with
    | true =>
      have hnil : epoch done (trace step none es ++ [(e,(step (final step none es) e).2)]) = [] := by
        unfold epoch
        exact List.rtakeWhile_concat_neg _ _ _ (by simp [hd])
      rw [hnil]
      exact ⟨hdone _ _ hd,rfl⟩
    | false =>
      have hsnoc : epoch done (trace step none es ++ [(e,(step (final step none es) e).2)]) =
          epoch done (trace step none es) ++ [(e,(step (final step none es) e).2)] := by
        unfold epoch
        exact List.rtakeWhile_concat_pos _ _ _ (by simp [hd])
      rw [hsnoc,List.map_append,final_append,trace_append,ht,← hf]
      exact ⟨rfl,rfl⟩

end Epoch
end FDemo.Mealy
