import FDemo.Libhv.TimerSafety

/-! # A round of an event loop

In a round the loop takes the timers that are due from the heap, in the order of their
timeouts, and calls them back in the opposite order. A timer that no callback touches is
called back if it was due.
-/
namespace FDemo.Libhv
open Heap
variable {ι : Type} [DecidableEq ι]

theorem advanceTimeout_eq {now period : ℕ} (hp : 0 < period) (fuel next : ℕ) (hfuel : now + 1 ≤ fuel + next) :
    advanceTimeout now period fuel next = some (Alarm.next next period now) := by
  induction fuel generalizing next with
  | zero => rw [advanceTimeout,if_neg (by omega),Alarm.next,if_pos (by omega)]
  | succ fuel ih =>
    rw [advanceTimeout]
    by_cases hle : next ≤ now
    · rw [if_pos hle,ih (next + period) (by omega),Alarm.next,Alarm.next,if_neg (not_lt.mpr hle)]
      split_ifs with hlt
      · rw [Nat.div_eq_of_lt (by omega),Nat.zero_add,Nat.one_mul]
      · rw [show now - next = now - (next + period) + period by omega,Nat.add_div_right _ hp,
          Nat.add_mul (_ + 1),Nat.one_mul]
        congr 1
        omega
    · rw [if_neg hle,Alarm.next,if_pos (not_le.mp hle)]

namespace Htimer

def period (t : Htimer) : ℕ := t.timeout.toNat * 1000

/-- The timer after the loop takes it from the heap. -/
def expired (t : Htimer) (now : ℕ) : Htimer :=
  if t.countDown.repeats = 0 then { t.countDown with destroy := true, pending := true }
  else { t.countDown with nextTimeout := Alarm.next t.nextTimeout t.period now, pending := true }

theorem expired_pending (t : Htimer) (now : ℕ) : (t.expired now).pending = true := by
  unfold expired
  split_ifs <;> rfl

theorem countDown_eq (t : Htimer) : ∃ r, t.countDown = { t with repeats := r } := by
  unfold countDown
  split_ifs
  · exact ⟨t.repeats,rfl⟩
  · exact ⟨_,rfl⟩

theorem expired_active (t : Htimer) (now : ℕ) : (t.expired now).active = t.active := by
  obtain ⟨r,hr⟩ := t.countDown_eq
  simp only [expired,hr]
  split_ifs <;> rfl

theorem Fits.period_pos {t : Htimer} {listed : Prop} (h : t.Fits listed) : 0 < t.period := by
  have hpos : 0 < t.timeout.toNat := UInt32.lt_iff_toNat_lt.mp (UInt32.pos_iff_ne_zero.mpr h.timeout)
  exact Nat.mul_pos hpos (by decide)

end Htimer

namespace Hloop
variable {s : Hloop ι} {v : ι} {t : Htimer}

theorem eventPending_write (s : Hloop ι) (v : ι) {t : Htimer} (hp : t.pending = false) (timers : Heap ι) (n a : ℕ) :
    (s.write v (some t) timers n a).eventPending v =
      some { s.write v (some { t with pending := true }) timers n a with
        npendings := s.npendings + 1, pendings := v :: s.pendings } := by
  rw [eventPending,event_write,Option.bind_eq_bind,Option.bind_some,if_neg (by simp [hp]),put_write]
  rfl

theorem heapDequeue_eq (h : s.timers.root = some v) : s.heapDequeue = s.heapRemove v := by
  rw [heapDequeue,Heap.dequeue,h,heapRemove]

/-- The loop takes the first timer. -/
theorem Good.expire (g : Good s s.pendings) (hroot : s.timers.root = some v) (hv : s.event v = some t)
    (hp : t.pending = false) (hout : v ∉ s.pendings) (now : ℕ) :
    ∃ s', s.expire now v = some s' ∧ Good s' (v :: s.pendings) ∧
      s'.event = Function.update s.event v (some (t.expired now)) ∧ s'.pendings = v :: s.pendings ∧
      s'.npendings = s.npendings + 1 ∧ s'.curHrtime = s.curHrtime := by
  obtain ⟨live,hh,hlive⟩ := g.holds
  have hvlive := mem_live hlive hv
  have hmem := hh.root_mem hroot
  have hd := hvlive.mp hmem
  have hfits := g.fits v t hv
  have hkey : t.nextTimeout = s.nextTimeout v := by rw [nextTimeout,hv]
  obtain ⟨r,hr⟩ := t.countDown_eq
  have hput : s.put v { t with repeats := r } =
      s.write v (some { t with repeats := r }) s.timers s.ntimers s.nactives := rfl
  rw [Hloop.expire,hv,Option.bind_eq_bind,Option.bind_some]
  simp only [Htimer.expired,hr,hput]
  have hrest : ∀ w, w ≠ v → (w ∈ v :: s.pendings ↔ w ∈ s.pendings) := fun w hw => by simp [hw]
  have hnodup : (v :: s.pendings).Nodup := List.nodup_cons.mpr ⟨hout,g.nodup⟩
  by_cases hzero : r = 0
  · obtain ⟨timers,hdel,hh'⟩ := htimerDelInner_write { t with repeats := r } s.ntimers s.nactives hh hvlive hkey
    have hpos : 0 < s.ntimers := g.ntimers.pos (show isLive (s.event v) = true by simp [isLive,hv,hd])
    simp only [if_pos hzero,hdel,Option.bind_eq_bind,Option.bind_some]
    refine ⟨_,eventPending_write s v (t := { t with repeats := r, destroy := true }) hp _ _ _,
      g.step rfl ⟨_,?_,live_erase hlive rfl⟩ ?_ ?_ ?_ hrest (fun _ => Option.some_ne_none _) hnodup,rfl,rfl,rfl,rfl⟩
    · exact holds_write (if t.destroy then s.ntimers else s.ntimers - 1) s.nactives hh' (Finset.notMem_erase v live) _
    · simpa [hv,isLive,hd,write] using Nat.sub_add_cancel hpos
    · rw [hv]
      rfl
    · rintro - ⟨⟩
      exact ⟨hfits.timeout,fun h => Bool.noConfusion h,fun _ => List.mem_cons_self,fun _ => rfl⟩
  · simp only [if_neg hzero]
    obtain ⟨timers₁,hremove,hh₁⟩ := heapRemove_write { t with repeats := r } s.ntimers s.nactives hh hmem hkey
    obtain ⟨timers,hinsert,hh'⟩ := heapInsert_write
      { t with repeats := r, nextTimeout := Alarm.next t.nextTimeout t.period now } s.ntimers s.nactives hh₁
      (Finset.notMem_erase v live)
    rw [Finset.insert_erase hmem,← Finset.insert_eq_of_mem hmem] at hh'
    have hdequeue : (s.write v (some { t with repeats := r }) s.timers s.ntimers s.nactives).reschedule now v
        { t with repeats := r } =
        some (s.write v (some { t with repeats := r, nextTimeout := Alarm.next t.nextTimeout t.period now }) timers
          s.ntimers s.nactives) := by
      have hroot' : (s.write v (some { t with repeats := r }) s.timers s.ntimers s.nactives).timers.root = some v :=
        hroot
      rw [reschedule,heapDequeue_eq hroot',hremove]
      simp only [Option.bind_eq_bind,Option.bind_some]
      rw [show t.timeout.toNat * 1000 = t.period from rfl,
        advanceTimeout_eq hfits.period_pos (now + 1) t.nextTimeout (by omega),Option.bind_some,put_write]
      exact hinsert
    rw [hdequeue,Option.bind_eq_bind,Option.bind_some]
    refine ⟨_,eventPending_write s v (t := { t with repeats := r, nextTimeout := _ }) hp _ _ _,
      g.step rfl ⟨_,?_,live_insert hlive ?_⟩ ?_ ?_ ?_ hrest (fun _ => Option.some_ne_none _) hnodup,rfl,rfl,rfl,rfl⟩
    · refine hh'.congr fun w _ => congrFun (nextTimeout_write s v _ timers s.ntimers s.nactives) w
    · simp [isLive,hd]
    · rw [hv]
      rfl
    · rw [hv]
      rfl
    · rintro - ⟨⟩
      exact ⟨hfits.timeout,hfits.active,fun _ => List.mem_cons_self,fun _ => rfl⟩

/-- The timer is in the heap, and its time has come. -/
def isDue (now : ℕ) (t : Option Htimer) : Bool := t.any fun t => !t.destroy && decide (t.nextTimeout ≤ now)

theorem isLive_of_isDue {now : ℕ} {t : Option Htimer} (h : isDue now t = true) : isLive t = true := by
  cases t with
  | none => cases h
  | some t => exact (Bool.and_eq_true _ _ ▸ h : _ ∧ _).1

theorem isDue_expired (t : Htimer) {listed : Prop} (ht : t.Fits listed) (now : ℕ) :
    isDue now (some (t.expired now)) = false := by
  have hlt := Alarm.lt_next ht.period_pos t.nextTimeout now
  unfold Htimer.expired
  split_ifs
  · rfl
  · simp [isDue,hlt]

/-- What the loop over the timers that are due does. -/
structure Fired (now : ℕ) (s s' : Hloop ι) (due : List ι) : Prop where
  good : Good s' s'.pendings
  pendings : s'.pendings = due.reverse ++ s.pendings
  npendings : s'.npendings = s.npendings + due.length
  curHrtime : s'.curHrtime = s.curHrtime
  mem : ∀ v, v ∈ due ↔ isDue now (s.event v) = true
  event : ∀ v, s'.event v = if v ∈ due then (s.event v).map (·.expired now) else s.event v
  order : due.Pairwise fun v w => s.nextTimeout v ≤ s.nextTimeout w

/-- When the first timer is not due, none is. -/
theorem Good.timersLoop_stop {now : ℕ} (g : Good s s.pendings) (fuel : ℕ)
    (hstop : ∀ v, s.timers.root = some v → now < s.nextTimeout v) :
    hloopProcessTimersInner now fuel s = some (s,0) ∧ Fired now s s [] := by
  obtain ⟨live,hh,hlive⟩ := g.holds
  have hnone : ∀ w, isDue now (s.event w) = false := by
    intro w
    by_contra hdue
    rw [Bool.not_eq_false] at hdue
    have hmem : w ∈ live := (hlive w).mpr (isLive_of_isDue hdue)
    obtain ⟨t,hw,ht⟩ := (Option.any_eq_true _ _).mp hdue
    cases hroot : s.timers.root with
    | none => simp [hh.root_eq_none.mp hroot] at hmem
    | some v =>
      have hle := hh.root_le hroot hmem
      have hlt := hstop v hroot
      have hkey : s.nextTimeout w = t.nextTimeout := by rw [nextTimeout,hw]
      simp at ht
      omega
  refine ⟨?_,g,rfl,rfl,rfl,fun v => by simp [hnone],fun v => by simp,.nil⟩
  unfold hloopProcessTimersInner
  cases hroot : s.timers.root with
  | none => rfl
  | some v =>
    obtain ⟨t,hv,-⟩ := (Option.any_eq_true _ _).mp ((hlive v).mp (hh.root_mem hroot))
    have hlt := hstop v hroot
    rw [nextTimeout,hv] at hlt
    simp only [hv,Option.bind_eq_bind,Option.bind_some]
    rw [if_pos hlt]

theorem Good.isDue_root {now : ℕ} {rest : List ι} (g : Good s rest) (hroot : s.timers.root = some v)
    (hle : s.nextTimeout v ≤ now) : ∃ t, s.event v = some t ∧ isDue now (some t) = true := by
  obtain ⟨live,hh,hlive⟩ := g.holds
  obtain ⟨t,hv,hd⟩ := (Option.any_eq_true _ _).mp ((hlive v).mp (hh.root_mem hroot))
  rw [nextTimeout,hv] at hle
  exact ⟨t,hv,Bool.and_eq_true _ _ ▸ ⟨hd,decide_eq_true hle⟩⟩

/-- The first timer, and then the others that are due. -/
theorem Fired.cons {now : ℕ} {s₁ s' : Hloop ι} {due : List ι} (hfired : Fired now s₁ s' due) (g : Good s s.pendings)
    (hroot : s.timers.root = some v) (hv : s.event v = some t) (hdue : isDue now (some t) = true)
    (hevent : s₁.event = Function.update s.event v (some (t.expired now))) (hpendings : s₁.pendings = v :: s.pendings)
    (hnpendings : s₁.npendings = s.npendings + 1) (htime : s₁.curHrtime = s.curHrtime) :
    Fired now s s' (v :: due) := by
  have hself : s₁.event v = some (t.expired now) := by rw [hevent,Function.update_self]
  have hoff : ∀ w, w ≠ v → s₁.event w = s.event w := fun w hw => by rw [hevent,Function.update_of_ne hw]
  have hkey : ∀ w, w ≠ v → s₁.nextTimeout w = s.nextTimeout w := fun w hw => by
    rw [nextTimeout,hoff w hw,nextTimeout]
  have hvdue : v ∉ due := by simp [hfired.mem,hself,isDue_expired t (g.fits v t hv) now]
  refine ⟨hfired.good,?_,?_,hfired.curHrtime.trans htime,fun w => ?_,fun w => ?_,List.pairwise_cons.mpr ⟨?_,?_⟩⟩
  · rw [hfired.pendings,hpendings,List.reverse_cons,List.append_assoc]
    rfl
  · rw [hfired.npendings,hnpendings,List.length_cons]
    omega
  · rw [List.mem_cons,hfired.mem]
    by_cases hwv : w = v
    · subst hwv
      rw [hv]
      exact iff_of_true (.inl rfl) hdue
    · rw [or_iff_right hwv,hoff w hwv]
  · rw [hfired.event]
    by_cases hwv : w = v
    · subst hwv
      rw [if_neg hvdue,if_pos List.mem_cons_self,hself,hv,Option.map_some]
    · simp only [hoff w hwv,List.mem_cons,hwv,false_or]
  · intro w hw
    obtain ⟨live,hh,hlive⟩ := g.holds
    have hwdue := (hfired.mem w).mp hw
    rw [hoff w (ne_of_mem_of_not_mem hw hvdue)] at hwdue
    exact hh.root_le hroot ((hlive w).mpr (isLive_of_isDue hwdue))
  · refine hfired.order.imp_of_mem fun {a b} ha hb hle => ?_
    rwa [hkey a (ne_of_mem_of_not_mem ha hvdue),hkey b (ne_of_mem_of_not_mem hb hvdue)] at hle

theorem Good.timersLoop {now n : ℕ} (fuel : ℕ) (g : Good s s.pendings)
    (hpending : ∀ w ∈ s.pendings, ∀ t, s.event w = some t → t.pending = true)
    (hfresh : ∀ w t, s.event w = some t → isDue now (some t) = true → t.pending = false)
    (hn : Tally n fun v => isDue now (s.event v)) (hfuel : n ≤ fuel) :
    ∃ s' due, hloopProcessTimersInner now fuel s = some (s',due.length) ∧ Fired now s s' due := by
  induction fuel generalizing s n with
  | zero =>
    refine ⟨s,[],g.timersLoop_stop 0 fun v hroot => not_le.mp fun hle => ?_⟩
    obtain ⟨t,hv,hdue⟩ := g.isDue_root hroot hle
    have := hn.pos (v := v) (hv ▸ hdue)
    omega
  | succ fuel ih =>
    by_cases hstop : ∀ v, s.timers.root = some v → now < s.nextTimeout v
    · exact ⟨s,[],g.timersLoop_stop _ hstop⟩
    · simp only [not_forall,not_lt] at hstop
      obtain ⟨v,hroot,hle⟩ := hstop
      obtain ⟨t,hv,hdue⟩ := g.isDue_root hroot hle
      have hp := hfresh v t hv hdue
      have hout : v ∉ s.pendings := fun hmem => by simp [hpending v hmem t hv] at hp
      obtain ⟨s₁,hexpire,g₁,hevent,hpendings,hnpendings,htime⟩ := g.expire hroot hv hp hout now
      have hself : s₁.event v = some (t.expired now) := by rw [hevent,Function.update_self]
      have hoff : ∀ w, w ≠ v → s₁.event w = s.event w := fun w hw => by rw [hevent,Function.update_of_ne hw]
      have hexpired := isDue_expired t (g.fits v t hv) now
      have hpos := hn.pos (v := v) (hv ▸ hdue)
      rw [← hpendings] at g₁
      have hpending₁ : ∀ w ∈ s₁.pendings, ∀ u, s₁.event w = some u → u.pending = true := by
        intro w hw u hu
        rw [hpendings,List.mem_cons] at hw
        by_cases hwv : w = v
        · rw [hwv,hself] at hu
          rw [← Option.some.inj hu,t.expired_pending]
        · exact hpending w (hw.resolve_left hwv) u (by rw [← hoff w hwv,hu])
      have hfresh₁ : ∀ w u, s₁.event w = some u → isDue now (some u) = true → u.pending = false := by
        intro w u hu hudue
        by_cases hwv : w = v
        · rw [hwv,hself] at hu
          rw [← hu,hexpired] at hudue
          cases hudue
        · exact hfresh w u (by rw [← hoff w hwv,hu]) hudue
      have hn₁ : Tally (n - 1) fun w => isDue now (s₁.event w) := by
        refine hn.update (v := v) (fun w hw => by rw [hoff w hw]) ?_
        rw [hself,hexpired,hv,hdue]
        exact Nat.sub_add_cancel hpos
      obtain ⟨s',due,hloop,hfired⟩ := ih g₁ hpending₁ hfresh₁ hn₁ (by omega)
      have hlt : ¬now < t.nextTimeout := by
        rw [nextTimeout,hv] at hle
        exact not_lt.mpr hle
      refine ⟨s',v :: due,?_,hfired.cons g hroot hv hdue hevent hpendings hnpendings htime⟩
      rw [hloopProcessTimersInner,hroot]
      simp only [hv,Option.bind_eq_bind,Option.bind_some]
      rw [if_neg hlt]
      simp only [hexpire,hloop,Option.bind_some]
      rfl

/-- A loop between its rounds. -/
structure Idle (s : Hloop ι) : Prop where
  good : Good s []
  pendings : s.pendings = []
  npendings : s.npendings = 0

theorem Idle.live (h : Idle s) (hv : s.event v = some t) : t.destroy = false := by
  by_contra hd
  have hfits := h.good.fits v t hv
  exact List.not_mem_nil (hfits.pending (hfits.destroy (Bool.not_eq_false _ ▸ hd)))

theorem Idle.updateTime (h : Idle s) (now : ℕ) : Idle (s.hloopUpdateTime now) :=
  ⟨⟨h.good.holds,h.good.ntimers,h.good.nactives,h.good.fits,h.good.listed,h.good.nodup⟩,h.pendings,h.npendings⟩

theorem Good.nelts {rest : List ι} (g : Good s rest) : s.timers.nelts = s.ntimers := by
  obtain ⟨live,hh,hlive⟩ := g.holds
  obtain ⟨S,hS,hcard⟩ := g.ntimers
  have heq : S = live := Finset.ext fun v => by rw [hS,hlive]
  rw [hh.nelts,← hcard,heq]

/-- The timers that are due become pending. -/
theorem Idle.processTimers (h : Idle s) :
    ∃ s' due, (if s.ntimers = 0 then .ok s else (s.hloopProcessTimers).elim (.error .crash) fun x => .ok x.1) =
      Except.ok (ε := Fault) s' ∧ Fired s.curHrtime s s' due := by
  have g : Good s s.pendings := h.pendings ▸ h.good
  split_ifs with hn
  · refine ⟨s,[],rfl,(g.timersLoop_stop 0 fun v hroot => ?_).2⟩
    obtain ⟨live,hh,hlive⟩ := g.holds
    have := g.ntimers.pos ((hlive v).mp (hh.root_mem hroot))
    omega
  · have hsub : ∃ n ≤ s.ntimers, Tally n fun v => isDue s.curHrtime (s.event v) :=
      g.ntimers.sub fun v => isLive_of_isDue
    obtain ⟨n,hle,hdue⟩ := hsub
    have hfresh : ∀ w t, s.event w = some t → isDue s.curHrtime (some t) = true → t.pending = false := by
      intro w t hw _
      by_contra hp
      exact List.not_mem_nil ((h.good.fits w t hw).pending (Bool.not_eq_false _ ▸ hp))
    obtain ⟨s',due,hloop,hfired⟩ := g.timersLoop s.timers.nelts (by simp [h.pendings]) hfresh hdue (g.nelts ▸ hle)
    refine ⟨s',due,?_,hfired⟩
    rw [hloopProcessTimers,hloop]
    rfl

theorem Good.processPendings (g : Good s s.pendings) (hn : s.npendings = s.pendings.length)
    (cb : Hloop ι → ι → List (Call ι)) :
    Sound (hloopProcessPendings cb s) fun x => Idle x.1 ∧ Turned cb s.pendings s x := by
  unfold hloopProcessPendings
  split_ifs with hzero
  · have hnil : s.pendings = [] := List.length_eq_zero_iff.mp (hn ▸ hzero)
    rw [hnil] at g ⊢
    exact ⟨⟨g,hnil,hzero⟩,g,.refl [],fun _ _ _ => rfl,fun _ _ _ h => absurd h List.not_mem_nil⟩
  · refine (g.pendingsLoop cb).bind fun x hx => ?_
    have hgood : Good { x.1 with pendings := [], npendings := 0 } [] :=
      ⟨hx.good.holds,hx.good.ntimers,hx.good.nactives,hx.good.fits,hx.good.listed,hx.good.nodup⟩
    exact ⟨⟨hgood,rfl,rfl⟩,hgood,hx.called,hx.others,hx.listed⟩

/-- The result of a round. -/
structure Round (cb : Hloop ι → ι → List (Call ι)) (now : ℕ) (s : Hloop ι) (x : Hloop ι × List ι) : Prop where
  idle : Idle x.1
  due : ∀ v ∈ x.2, isDue now (s.event v) = true
  order : x.2.Pairwise fun v w => s.nextTimeout w ≤ s.nextTimeout v
  nodup : x.2.Nodup
  others : ∀ v, Spares cb v → s.event v = none → x.1.event v = none
  spared : ∀ v t, Spares cb v → s.event v = some t → (v ∈ x.2 ↔ t.nextTimeout ≤ now) ∧
    x.1.event v = if t.nextTimeout ≤ now then (t.expired now).settled else some t

theorem Idle.round (h : Idle s) (cb : Hloop ι → ι → List (Call ι)) (now : ℕ) :
    Sound (hloopProcessEvents cb now s) (Round cb now s) := by
  obtain ⟨s₁,due,hprocess,hfired⟩ := (h.updateTime now).processTimers
  have hpendings : s₁.pendings = due.reverse := by simpa [hloopUpdateTime,h.pendings] using hfired.pendings
  have hn : s₁.npendings = s₁.pendings.length := by
    rw [hpendings,List.length_reverse]
    simpa [hloopUpdateTime,h.npendings] using hfired.npendings
  unfold hloopProcessEvents
  dsimp only
  rw [hprocess]
  refine (hfired.good.processPendings hn cb).imp fun x ⟨hidle,hx⟩ => ?_
  rw [hpendings] at hx
  have hcalled : ∀ v ∈ x.2, v ∈ due := fun v hv => List.mem_reverse.mp (hx.called.subset hv)
  refine ⟨hidle,fun v hv => (hfired.mem v).mp (hcalled v hv),?_,?_,fun v hspares hv => ?_,fun v t hspares hv => ?_⟩
  · exact (List.pairwise_reverse.mpr hfired.order).sublist hx.called
  · exact (hpendings ▸ hfired.good.nodup).sublist hx.called
  · have hout : v ∉ due := fun hmem => by
      have hdue := (hfired.mem v).mp hmem
      rw [show (s.hloopUpdateTime now).event v = none from hv] at hdue
      cases hdue
    rw [hx.others v hspares (mt List.mem_reverse.mp hout),hfired.event,if_neg hout]
    exact hv
  · have hdue : v ∈ due ↔ t.nextTimeout ≤ now := by
      rw [hfired.mem,show (s.hloopUpdateTime now).event v = some t from hv]
      simp only [isDue,Option.any_some,h.live hv,Bool.not_false,Bool.true_and]
      exact decide_eq_true_iff
    have hevent := hfired.event v
    rw [show (s.hloopUpdateTime now).event v = some t from hv] at hevent
    by_cases hle : t.nextTimeout ≤ now
    · have hmem := hdue.mpr hle
      rw [if_pos hmem] at hevent
      have hactive : (t.expired now).active = true := by
        rw [t.expired_active]
        exact (h.good.fits v t hv).active (h.live hv)
      obtain ⟨hcall,hafter⟩ := hx.listed v _ hspares (List.mem_reverse.mpr hmem) hevent (t.expired_pending now) hactive
      rw [if_pos hle]
      exact ⟨iff_of_true hcall hle,hafter⟩
    · have hout := mt hdue.mp hle
      rw [if_neg hout] at hevent
      refine ⟨iff_of_false (fun hmem => hout (hcalled v hmem)) hle,?_⟩
      rw [hx.others v hspares (mt List.mem_reverse.mp hout),hevent,if_neg hle]

end Hloop
end FDemo.Libhv
