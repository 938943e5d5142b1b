import FDemo.Foundation.Mealy
import Mathlib.Data.Int.Order.Basic
import Mathlib.Tactic.Ring

/-! # A lift

A lift is parked at a floor, on a trip to another floor, or broken. On a trip it
passes every floor between in order. It gives its signals to the motor and to
those it calls. Floors are integers of any size.
-/
namespace FDemo.Fsm
open Mealy

structure Trip where
  floor : ℤ
  dest : ℤ
  ne : floor ≠ dest
  deriving DecidableEq

def Trip.next (t : Trip) : ℤ := t.floor + (t.dest - t.floor).sign

/-- The floors after `f` up to `g`, in the order of a trip. -/
def path (f g : ℤ) : List ℤ := (List.range (g - f).natAbs).map fun k : ℕ => f + (k + 1) * (g - f).sign

theorem path_eq_nil {f g : ℤ} : path f g = [] ↔ f = g := by
  rw [path,List.map_eq_nil_iff,List.range_eq_nil]
  omega

theorem sign_sub_eq {f g : ℤ} : (g - f).sign = if f < g then 1 else if g < f then -1 else 0 := by
  rcases lt_trichotomy f g with h | h | h
  · rw [if_pos h,Int.sign_eq_one_of_pos (by omega)]
  · subst h
    simp
  · rw [if_neg (by omega),if_pos h,Int.sign_eq_neg_one_of_neg (by omega)]

theorem Trip.next_eq (t : Trip) : t.next = if t.floor < t.dest then t.floor + 1 else t.floor - 1 := by
  have := t.ne
  rw [Trip.next,sign_sub_eq]
  split_ifs <;> omega

theorem Trip.natAbs_next (t : Trip) : (t.floor - t.next).natAbs = 1 := by
  rw [t.next_eq]
  split_ifs <;> omega

theorem Trip.next_lt_dest (t : Trip) (h : t.next ≠ t.dest) : t.next < t.dest ↔ t.floor < t.dest := by
  have hne := t.ne
  have hnext := t.next_eq
  split_ifs at hnext <;> omega

theorem Trip.path_eq (t : Trip) : path t.floor t.dest = t.next :: path t.next t.dest := by
  have hne := t.ne
  have hn := t.next_eq
  have hlen : (t.dest - t.floor).natAbs = (t.dest - t.next).natAbs + 1 := by
    split_ifs at hn <;> omega
  rw [path,hlen,List.range_succ_eq_map,List.map_cons,List.map_map]
  congr 1
  · simp [Trip.next]
  · refine List.map_congr_left fun k hk => ?_
    have hlt := List.mem_range.mp hk
    have hsign : (t.dest - t.next).sign = (t.dest - t.floor).sign := by
      rw [sign_sub_eq,sign_sub_eq]
      split_ifs at hn ⊢ <;> omega
    rw [Function.comp_apply,hsign,Trip.next]
    push_cast
    ring

inductive Lift where
  | parked (floor : ℤ)
  | travelling (trip : Trip)
  | broken (floor : ℤ)
  deriving DecidableEq

inductive Lift.Input where
  | call (floor : ℤ)
  | sensor (floor : ℤ)
  | alarm
  deriving DecidableEq

inductive Lift.Signal where
  | up
  | down
  | stop
  | maintenance
  | firefighters
  | reached (floor : ℤ)
  deriving DecidableEq

namespace Lift

namespace Signal

def floor : Signal → Option ℤ
  | .reached f => some f
  | _ => none

/-- The signals to the motor. -/
def IsOrder (a : Signal) : Prop := a = .up ∨ a = .down ∨ a = .stop

instance (a : Signal) : Decidable a.IsOrder := inferInstanceAs (Decidable (_ ∨ _))

/-- The signals to those who help. -/
def IsHelp (a : Signal) : Prop := a = .maintenance ∨ a = .firefighters

instance (a : Signal) : Decidable a.IsHelp := inferInstanceAs (Decidable (_ ∨ _))

end Signal

def floor : Lift → ℤ
  | parked f => f
  | travelling t => t.floor
  | broken f => f

/-- The order to the motor for a trip from `f` to `g`. -/
def towards (f g : ℤ) : Signal := if f < g then .up else .down

def depart (f g : ℤ) : Lift × List Signal :=
  if h : f = g then (.parked f,[]) else (.travelling ⟨f,g,h⟩,[towards f g])

def arrive (f g : ℤ) : Lift × List Signal :=
  if h : f = g then (.parked f,[.reached f,.stop]) else (.travelling ⟨f,g,h⟩,[.reached f])

def step : Lift → Input → Lift × List Signal
  | .parked f, .call g => depart f g
  | .travelling t, .sensor f => if f = t.next then arrive f t.dest else (.broken t.floor,[.maintenance,.stop])
  | l, .alarm => (.broken l.floor,[.firefighters,.stop])
  | l, _ => (l,[])

/-- All signals of a run. -/
def signals (l : Lift) (inputs : List Input) : List Signal := (trace step l inputs).flatMap Prod.snd

@[simp] theorem signals_nil (l : Lift) : signals l [] = [] := rfl
@[simp] theorem signals_cons (l : Lift) (i : Input) (inputs : List Input) :
    signals l (i :: inputs) = (step l i).2 ++ signals (step l i).1 inputs := rfl

theorem signals_append (l : Lift) (xs ys : List Input) :
    signals l (xs ++ ys) = signals l xs ++ signals (final step l xs) ys := by
  rw [signals,trace_append,List.flatMap_append]
  rfl

def Input.reading : Input → Option ℤ
  | .sensor f => some f
  | _ => none

/-- The floors that the sensor reports. -/
def readings (inputs : List Input) : List ℤ := inputs.filterMap Input.reading

@[simp] theorem readings_nil : readings [] = [] := rfl
@[simp] theorem readings_call (g : ℤ) (inputs : List Input) : readings (.call g :: inputs) = readings inputs := rfl
@[simp] theorem readings_sensor (f : ℤ) (inputs : List Input) :
    readings (.sensor f :: inputs) = f :: readings inputs := rfl

/-- On a trip the calls change nothing, and each right reading takes the lift one floor further. -/
theorem final_travelling {inputs : List Input} {left : List ℤ} (t : Trip) (halarm : .alarm ∉ inputs)
    (hpath : path t.floor t.dest = readings inputs ++ left) (hleft : left ≠ []) :
    ∃ t', final step (travelling t) inputs = travelling t' ∧ t'.dest = t.dest ∧ path t'.floor t.dest = left ∧
      (t'.floor < t.dest ↔ t.floor < t.dest) ∧ t'.floor = (readings inputs).getLastD t.floor ∧
      signals (travelling t) inputs = (readings inputs).map Signal.reached := by
  induction inputs generalizing t with
  | nil => exact ⟨t,rfl,rfl,hpath,Iff.rfl,rfl,rfl⟩
  | cons i inputs ih =>
    have hrest : .alarm ∉ inputs := fun h => halarm (List.mem_cons_of_mem i h)
    cases i with
    | call g => exact ih t hrest hpath
    | alarm => exact absurd List.mem_cons_self halarm
    | sensor f =>
      rw [t.path_eq,readings_sensor,List.cons_append] at hpath
      obtain ⟨hf,hnext⟩ := List.cons_eq_cons.mp hpath
      subst hf
      have hne : t.next ≠ t.dest := by
        intro h
        rw [path_eq_nil.mpr h] at hnext
        exact hleft (List.append_eq_nil_iff.mp hnext.symm).2
      have hstep : step (travelling t) (.sensor t.next) = (travelling ⟨t.next,t.dest,hne⟩,[.reached t.next]) := by
        simp only [step,if_true,arrive,dif_neg hne]
      obtain ⟨t',hfinal,hdest,hleft',hlt,hfloor,hsignals⟩ := ih ⟨t.next,t.dest,hne⟩ hrest hnext
      refine ⟨t',?_,hdest,hleft',hlt.trans (t.next_lt_dest hne),?_,?_⟩
      · rw [final_cons,hstep,hfinal]
      · rw [hfloor,readings_sensor,List.getLastD_cons]
      · rw [signals_cons,hstep,hsignals,readings_sensor,List.map_cons]
        rfl

theorem step_arrives {t : Trip} {f : ℤ} (h : path t.floor t.dest = [f]) :
    f = t.dest ∧ step (travelling t) (.sensor f) = (parked f,[.reached f,.stop]) := by
  rw [t.path_eq] at h
  obtain ⟨hf,hnil⟩ := List.cons_eq_cons.mp h
  have hdest := path_eq_nil.mp hnil
  subst hf
  refine ⟨hdest,?_⟩
  simp only [step,if_true,arrive,dif_pos hdest]

theorem towards_next {t t' : Trip} (hfloor : t'.floor = t.next) (hdest : t'.dest = t.dest) :
    towards t'.floor t'.dest = towards t.floor t.dest := by
  have hne := t'.ne
  rw [hdest,hfloor] at hne
  rw [towards,towards,hdest,hfloor]
  simp only [t.next_lt_dest hne]

theorem towards_isOrder (f g : ℤ) : (towards f g).IsOrder := by
  rw [towards]
  split_ifs
  · exact .inl rfl
  · exact .inr (.inl rfl)

/-- All that a step can do. -/
theorem step_cases (l : Lift) (i : Input) :
    (i ≠ .alarm ∧ step l i = (l,[])) ∨
    (∃ t : Trip, l = parked t.floor ∧ i = .call t.dest ∧ step l i = (travelling t,[towards t.floor t.dest])) ∨
    (∃ t t' : Trip, l = travelling t ∧ i = .sensor t.next ∧ t'.floor = t.next ∧ t'.dest = t.dest ∧
      step l i = (travelling t',[.reached t.next])) ∨
    (∃ t : Trip, l = travelling t ∧ i = .sensor t.next ∧ t.next = t.dest ∧
      step l i = (parked t.next,[.reached t.next,.stop])) ∨
    (∃ (t : Trip) (f : ℤ), l = travelling t ∧ i = .sensor f ∧ f ≠ t.next ∧
      step l i = (broken t.floor,[.maintenance,.stop])) ∨
    (i = .alarm ∧ step l i = (broken l.floor,[.firefighters,.stop])) := by
  cases i with
  | alarm => cases l <;> exact .inr (.inr (.inr (.inr (.inr ⟨rfl,rfl⟩))))
  | call g =>
    cases l with
    | parked f =>
      by_cases h : f = g
      · exact .inl ⟨by simp,by simp only [step,depart,dif_pos h]⟩
      · exact .inr (.inl ⟨⟨f,g,h⟩,rfl,rfl,by simp only [step,depart,dif_neg h]⟩)
    | travelling t => exact .inl ⟨by simp,rfl⟩
    | broken f => exact .inl ⟨by simp,rfl⟩
  | sensor f =>
    cases l with
    | parked g => exact .inl ⟨by simp,rfl⟩
    | broken g => exact .inl ⟨by simp,rfl⟩
    | travelling t =>
      by_cases hf : f = t.next
      · subst hf
        by_cases h : t.next = t.dest
        · exact .inr (.inr (.inr (.inl ⟨t,rfl,rfl,h,by simp only [step,if_true,arrive,dif_pos h]⟩)))
        · exact .inr (.inr (.inl ⟨t,⟨t.next,t.dest,h⟩,rfl,rfl,rfl,rfl,by simp only [step,if_true,arrive,dif_neg h]⟩))
      · exact .inr (.inr (.inr (.inr (.inl ⟨t,f,rfl,rfl,hf,by simp only [step,if_neg hf]⟩))))

/-- What the motor was told last. -/
def order : Lift → Signal
  | travelling t => towards t.floor t.dest
  | _ => .stop

def IsBroken : Lift → Prop
  | broken _ => True
  | _ => False

/-- What holds of the signals of a lift that started at floor 0, is at the floor `f` and gave the motor
the order `o` last. -/
structure Safe (f : ℤ) (o : Signal) (isBroken : Prop) (out : List Signal) : Prop where
  floors : (0 :: out.filterMap Signal.floor).IsChain fun f g => (f - g).natAbs = 1
  lastFloor : (out.filterMap Signal.floor).getLastD 0 = f
  orders : (out.filter fun a => a.IsOrder).IsChain fun a b => a = .stop ∨ b = .stop
  lastOrder : (out.filter fun a => a.IsOrder).getLastD .stop = o
  help : (∃ a ∈ out, a.IsHelp) ↔ isBroken
  calm : out.Pairwise fun a b => a.IsHelp → b = .firefighters ∨ b = .stop
  once : out.count .maintenance ≤ 1

theorem isChain_concat {α : Type*} {R : α → α → Prop} {xs : List α} {a : α} (d : α) (h : xs.IsChain R)
    (hlast : xs ≠ [] → R (xs.getLastD d) a) : (xs ++ [a]).IsChain R := by
  refine h.append (List.isChain_singleton a) fun x hx y hy => ?_
  obtain rfl : a = y := by simpa using hy
  have hne : xs ≠ [] := by
    rintro rfl
    simp at hx
  simpa [List.getLastD_eq_getLast?,Option.mem_def.mp hx] using hlast hne

namespace Safe
variable {f g : ℤ} {o a : Signal} {b : Prop} {out : List Signal}

theorem pairwise (h : Safe f o b out) (hcalm : b → a = .firefighters ∨ a = .stop) :
    (out ++ [a]).Pairwise fun a b => a.IsHelp → b = .firefighters ∨ b = .stop := by
  refine List.pairwise_append.mpr ⟨h.calm,List.pairwise_singleton _ a,fun x hx y hy hhelp => ?_⟩
  rw [List.mem_singleton.mp hy]
  exact hcalm (h.help.mp ⟨x,hx,hhelp⟩)

theorem not_mem (h : Safe f o b out) (hb : ¬b) : Signal.maintenance ∉ out :=
  fun hmem => hb (h.help.mp ⟨_,hmem,.inl rfl⟩)

theorem order (h : Safe f o b out) (ha : a.IsOrder) (hstop : o = .stop ∨ a = .stop) (hcalm : b → a = .stop) :
    Safe f a b (out ++ [a]) := by
  have hfloor : a.floor = none := by rcases ha with rfl | rfl | rfl <;> rfl
  have hhelp : ¬a.IsHelp := by rcases ha with rfl | rfl | rfl <;> decide
  have hmain : a ≠ .maintenance := fun h => hhelp (.inl h)
  refine ⟨?_,?_,?_,?_,?_,h.pairwise fun hb => .inr (hcalm hb),?_⟩
  · simpa [List.filterMap_append,hfloor] using h.floors
  · simpa only [List.filterMap_append,List.filterMap_cons,hfloor,List.filterMap_nil,List.append_nil]
      using h.lastFloor
  · rw [List.filter_append,List.filter_cons_of_pos (by simpa using ha)]
    refine isChain_concat .stop h.orders fun _ => ?_
    rw [h.lastOrder]
    exact hstop
  · rw [List.filter_append,List.filter_cons_of_pos (by simpa using ha)]
    exact List.getLastD_concat
  · rw [← h.help]
    simp [hhelp]
  · simpa [List.count_append,List.count_singleton,hmain] using h.once

theorem reached (h : Safe f o b out) (hb : ¬b) (hg : (f - g).natAbs = 1) : Safe g o b (out ++ [.reached g]) := by
  refine ⟨?_,?_,?_,?_,?_,h.pairwise fun hb' => absurd hb' hb,?_⟩
  · rw [List.filterMap_append,← List.cons_append]
    refine isChain_concat 0 h.floors fun _ => ?_
    rw [List.getLastD_cons,h.lastFloor]
    exact hg
  · rw [List.filterMap_append]
    exact List.getLastD_concat
  · simpa [List.filter_append,Signal.IsOrder] using h.orders
  · rw [List.filter_append,List.filter_cons_of_neg (by simp [Signal.IsOrder]),List.filter_nil,List.append_nil]
    exact h.lastOrder
  · rw [← h.help]
    simp [Signal.IsHelp]
  · simpa [List.count_append,List.count_singleton] using h.once

theorem callHelp (h : Safe f o b out) (ha : a.IsHelp) (hcalm : b → a = .firefighters) :
    Safe f o True (out ++ [a]) := by
  have hfloor : a.floor = none := by rcases ha with rfl | rfl <;> rfl
  have horder : ¬a.IsOrder := by rcases ha with rfl | rfl <;> decide
  refine ⟨?_,?_,?_,?_,?_,h.pairwise fun hb => .inl (hcalm hb),?_⟩
  · simpa [List.filterMap_append,hfloor] using h.floors
  · simpa only [List.filterMap_append,List.filterMap_cons,hfloor,List.filterMap_nil,List.append_nil]
      using h.lastFloor
  · simpa [List.filter_append,horder] using h.orders
  · rw [List.filter_append,List.filter_cons_of_neg (by simpa using horder),List.filter_nil,List.append_nil]
    exact h.lastOrder
  · simp only [iff_true]
    exact ⟨a,by simp,ha⟩
  · by_cases hb : b
    · rw [hcalm hb]
      simpa [List.count_append,List.count_singleton] using h.once
    · rw [List.count_append,List.count_eq_zero_of_not_mem (h.not_mem hb),Nat.zero_add]
      exact List.count_le_length

/-- One step keeps the signals safe. -/
theorem step {l : Lift} (h : Safe l.floor l.order l.IsBroken out) (i : Input) :
    Safe (l.step i).1.floor (l.step i).1.order (l.step i).1.IsBroken (out ++ (l.step i).2) := by
  rcases step_cases l i with ⟨-,hs⟩ | ⟨t,rfl,-,hs⟩ | ⟨t,t',rfl,-,hfloor,hdest,hs⟩ | ⟨t,rfl,-,hnext,hs⟩ |
    ⟨t,f,rfl,-,-,hs⟩ | ⟨-,hs⟩ <;> rw [hs]
  · simpa using h
  · exact h.order (towards_isOrder _ _) (.inl rfl) False.elim
  · show Safe t'.floor (towards t'.floor t'.dest) False _
    rw [towards_next hfloor hdest,hfloor]
    exact h.reached (fun hb => hb) t.natAbs_next
  · have hr := h.reached (fun hb => hb) t.natAbs_next
    rw [← List.singleton_append,← List.append_assoc]
    exact hr.order (.inr (.inr rfl)) (.inr rfl) fun _ => rfl
  · have hr := h.callHelp (a := .maintenance) (.inl rfl) False.elim
    rw [← List.singleton_append,← List.append_assoc]
    exact hr.order (.inr (.inr rfl)) (.inr rfl) fun _ => rfl
  · have hr := h.callHelp (a := .firefighters) (.inr rfl) fun _ => rfl
    rw [← List.singleton_append,← List.append_assoc]
    exact hr.order (.inr (.inr rfl)) (.inr rfl) fun _ => rfl

theorem run {l : Lift} (h : Safe l.floor l.order l.IsBroken out) (inputs : List Input) :
    Safe (final Lift.step l inputs).floor (final Lift.step l inputs).order (final Lift.step l inputs).IsBroken
      (out ++ signals l inputs) := by
  induction inputs generalizing l out with
  | nil => simpa using h
  | cons i inputs ih =>
    rw [signals_cons,← List.append_assoc,final_cons]
    exact ih (h.step i)

end Safe

/-- On a trip the sensor reports a floor that is not the next one. -/
def Misread (l : Lift) (inputs : List Input) : Prop :=
  ∃ pre f post t, inputs = pre ++ .sensor f :: post ∧ final step l pre = travelling t ∧ f ≠ t.next

theorem maintenance_mem_step (l : Lift) (i : Input) :
    .maintenance ∈ (step l i).2 ↔ ∃ t f, l = travelling t ∧ i = .sensor f ∧ f ≠ t.next := by
  constructor
  · intro h
    rcases step_cases l i with ⟨-,hs⟩ | ⟨t,-,-,hs⟩ | ⟨t,t',-,-,-,-,hs⟩ | ⟨t,-,-,-,hs⟩ | ⟨t,f,hl,hi,hf,-⟩ | ⟨-,hs⟩
    · simp [hs] at h
    · rw [hs,List.mem_singleton] at h
      rcases h ▸ towards_isOrder t.floor t.dest with h | h | h <;> cases h
    · simp [hs] at h
    · simp [hs] at h
    · exact ⟨t,f,hl,hi,hf⟩
    · simp [hs] at h
  · rintro ⟨t,f,rfl,rfl,hf⟩
    simp only [step,if_neg hf]
    exact List.mem_cons_self

theorem maintenance_mem_signals (l : Lift) (inputs : List Input) :
    .maintenance ∈ signals l inputs ↔ Misread l inputs := by
  constructor
  · intro h
    obtain ⟨x,hx,hmem⟩ := List.mem_flatMap.mp h
    obtain ⟨pre,post,rfl,hout⟩ := mem_trace step hx
    rw [hout] at hmem
    obtain ⟨t,f,hl,hi,hf⟩ := (maintenance_mem_step _ _).mp hmem
    exact ⟨pre,f,post,t,by rw [hi],hl,hf⟩
  · rintro ⟨pre,f,post,t,rfl,hl,hf⟩
    rw [signals_append,signals_cons,hl]
    refine List.mem_append_right _ (List.mem_append_left _ ?_)
    exact (maintenance_mem_step _ _).mpr ⟨t,f,rfl,rfl,hf⟩

theorem count_firefighters_step (l : Lift) (i : Input) :
    (step l i).2.count .firefighters = [i].count .alarm := by
  rcases step_cases l i with ⟨hi,hs⟩ | ⟨t,-,rfl,hs⟩ | ⟨t,t',-,rfl,-,-,hs⟩ | ⟨t,-,rfl,-,hs⟩ | ⟨t,f,-,rfl,-,hs⟩ |
    ⟨rfl,hs⟩ <;> rw [hs]
  · simp [hi]
  · rcases towards_isOrder t.floor t.dest with h | h | h <;> rw [h] <;> rfl
  all_goals rfl

theorem count_firefighters (l : Lift) (inputs : List Input) :
    (signals l inputs).count .firefighters = inputs.count .alarm := by
  induction inputs generalizing l with
  | nil => rfl
  | cons i inputs ih =>
    rw [signals_cons,List.count_append,count_firefighters_step,ih,← List.count_append]
    rfl

end Lift
end FDemo.Fsm
