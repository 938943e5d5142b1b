import FDemo.Libhv.TimerRounds

/-! # The timers of a loop as alarms

A run of a loop is made of its rounds, with any callbacks, and of calls between them.
No run crashes. The heap and the list of pending events make no difference to a
timer: as long as no one calls a function on it, it is called back as an alarm of its
own rings that is looked at in every round.
-/
namespace FDemo.Libhv
open Heap Hloop
variable {ι : Type} [DecidableEq ι]

/-- What happens to a loop. -/
inductive LoopEvent (ι : Type)
  | call (c : Call ι)
  | round (now : ℕ) (cb : Hloop ι → ι → List (Call ι))

/-- The times of the rounds, with the timers that are called back in them. -/
abbrev Log (ι : Type) := List (ℕ × List ι)

namespace LoopEvent

def step (s : Hloop ι) : LoopEvent ι → Except Fault (Hloop ι × Log ι)
  | call c => (c.issue [] s).map fun s => (s,[])
  | round now cb => (hloopProcessEvents cb now s).map fun x => (x.1,[(now,x.2)])

def run : List (LoopEvent ι) → Hloop ι → Except Fault (Hloop ι × Log ι)
  | [], s => .ok (s,[])
  | e :: es, s => do
    let (s,log) ← e.step s
    let (s,later) ← run es s
    .ok (s,log ++ later)

/-- Nothing is called on `v`. -/
def Spares (v : ι) : LoopEvent ι → Prop
  | call c => c.timer ≠ v
  | round _ cb => Hloop.Spares cb v

end LoopEvent

theorem Sound.map {α β : Type} {x : Except Fault α} {f : α → β} {P : α → Prop} {Q : β → Prop} (hx : Sound x P)
    (hf : ∀ a, P a → Q (f a)) : Sound (x.map f) Q := by
  cases x with
  | ok a => exact hf a hx
  | error e => exact hx

theorem ok_of_bind {α β : Type} {x : Except Fault α} {f : α → Except Fault β} {b : β}
    (h : (x >>= f).toOption = some b) : ∃ a, x = .ok a ∧ (f a).toOption = some b := by
  cases x with
  | ok a => exact ⟨a,rfl,h⟩
  | error e => cases h

namespace Htimer

/-- The timer as an alarm. It goes on for ever when it was added with no repetition, as with `INFINITE` ones. -/
def alarm (t : Htimer) : Alarm :=
  ⟨t.nextTimeout,t.period,if t.repeats = 0 ∨ t.repeats = infinite then none else some t.repeats.toNat⟩

theorem toNat_pred {r : UInt32} (h : r ≠ 0) : (r - 1).toNat = r.toNat - 1 := by
  rw [UInt32.toNat_sub_of_le]
  · rfl
  · exact UInt32.le_iff_toNat_le.mpr (Nat.succ_le_of_lt (UInt32.lt_iff_toNat_lt.mp (UInt32.pos_iff_ne_zero.mpr h)))

theorem pred_eq_zero {r : UInt32} : r - 1 = 0 ↔ r = 1 := UInt32.sub_left_inj (b := 1) 1

theorem pred_eq_infinite {r : UInt32} : r - 1 = infinite ↔ r = 0 := UInt32.sub_left_inj (b := 0) 1

theorem alarm_left_ne_zero (t : Htimer) : t.alarm.left ≠ some 0 := by
  unfold alarm
  split_ifs with hforever
  · exact (Option.some_ne_none 0).symm
  · have hpos := UInt32.lt_iff_toNat_lt.mp (UInt32.pos_iff_ne_zero.mpr (not_or.mp hforever).1)
    exact fun h => absurd (Option.some.inj h) (Nat.ne_of_gt hpos)

theorem alarm_left_iff (t : Htimer) (n : ℕ) :
    (∀ m, t.alarm.left = some m → n < m) ↔ t.repeats = 0 ∨ t.repeats = infinite ∨ n < t.repeats.toNat := by
  unfold alarm
  split_ifs with hforever
  · exact iff_of_true (fun m hm => by cases hm) (hforever.imp_right .inl)
  · obtain ⟨hzero,hinf⟩ := not_or.mp hforever
    rw [or_iff_right hzero,or_iff_right hinf]
    exact ⟨fun h => h _ rfl,fun h m hm => Option.some.inj hm ▸ h⟩

/-- A timer that expires becomes the alarm after it rings. -/
theorem alarm_expired {t : Htimer} (hd : t.destroy = false) (now : ℕ) :
    (t.expired now).settled.map alarm = t.alarm.advance now := by
  unfold Alarm.advance expired countDown
  by_cases hinf : t.repeats = infinite
  · have hzero : infinite ≠ 0 := by decide
    simp [hinf,hzero,settled,alarm,hd,period]
  · by_cases hzero : t.repeats = 0
    · have hpred : (0 : UInt32) - 1 = infinite := rfl
      have hzero' : infinite ≠ 0 := by decide
      have hinf' : (0 : UInt32) ≠ infinite := hzero'.symm
      simp [hzero,hpred,hzero',hinf',settled,alarm,hd,period]
    · have hpos : 0 < t.repeats.toNat := UInt32.lt_iff_toNat_lt.mp (UInt32.pos_iff_ne_zero.mpr hzero)
      have hpred : t.repeats - 1 ≠ infinite := mt pred_eq_infinite.mp hzero
      by_cases hone : t.repeats = 1
      · have hinf' : (1 : UInt32) ≠ infinite := by decide
        simp [hone,hinf',settled,alarm]
      · have hone' : t.repeats.toNat ≠ 1 := fun h => hone (UInt32.toNat_inj.mp h)
        have hpred' : t.repeats - 1 ≠ 0 := mt pred_eq_zero.mp hone
        simp [hinf,hzero,hpred,hpred',hone',settled,alarm,hd,period,toNat_pred hzero]

end Htimer

namespace Hloop
variable {s : Hloop ι}

theorem Idle.empty : Idle ({} : Hloop ι) := by
  refine ⟨⟨⟨∅,.empty _,fun v => by simp [isLive]⟩,⟨∅,fun v => by simp [isLive],rfl⟩,⟨∅,fun v => by simp [isActive],rfl⟩,
    fun v t hv => ?_,fun v hv => absurd hv List.not_mem_nil,.nil⟩,rfl,rfl⟩
  cases hv

theorem Idle.issue (h : Idle s) (c : Call ι) :
    Sound (c.issue [] s) fun s' => Idle s' ∧ ∀ w, w ≠ c.timer → s'.event w = s.event w := by
  refine (h.good.issue c).imp fun s' hs' => ⟨⟨hs'.1,?_,?_⟩,hs'.2.event⟩
  · exact hs'.2.pendings.trans h.pendings
  · exact hs'.2.npendings.trans h.npendings

theorem cleanupTimers_spec (fuel : ℕ) {live : Finset ι} (hh : Holds s.nextTimeout s.timers live)
    (hlive : ∀ v, s.event v ≠ none → v ∈ live) (hfuel : live.card ≤ fuel) :
    ∃ s', s.cleanupTimers fuel = some s' ∧ ∀ v, s'.event v = none := by
  induction fuel generalizing s live with
  | zero =>
    have hempty : live = ∅ := Finset.card_eq_zero.mp (Nat.le_zero.mp hfuel)
    refine ⟨{ s with timers := {} },?_,fun v => ?_⟩
    · rw [cleanupTimers,hh.root_eq_none.mpr hempty]
    · by_contra hv
      simpa [hempty] using hlive v hv
  | succ fuel ih =>
    rw [cleanupTimers]
    cases hroot : s.timers.root with
    | none =>
      refine ⟨{ s with timers := {} },rfl,fun v => ?_⟩
      by_contra hv
      simpa [hh.root_eq_none.mp hroot] using hlive v hv
    | some v =>
      have hmem := hh.root_mem hroot
      obtain ⟨timers,hremove,hh'⟩ := hh.remove hmem
      have hdequeue : s.heapDequeue = some { s with timers := timers } := by
        rw [heapDequeue_eq hroot]
        exact congrArg (Option.map _) hremove
      have hoff : ∀ w, w ≠ v → ({ s with timers := timers }.free v).event w = s.event w :=
        fun w hw => Function.update_of_ne hw _ _
      have hkey : ∀ w ∈ live.erase v, ({ s with timers := timers }.free v).nextTimeout w = s.nextTimeout w := by
        intro w hw
        rw [nextTimeout,hoff w (Finset.ne_of_mem_erase hw),nextTimeout]
      simp only [hdequeue,Option.bind_some]
      refine ih (hh'.congr hkey) (fun w hw => ?_) (by rw [Finset.card_erase_of_mem hmem]; omega)
      have hwv : w ≠ v := by
        rintro rfl
        exact hw (Function.update_self _ _ _)
      rw [hoff w hwv] at hw
      exact Finset.mem_erase.mpr ⟨hwv,hlive w hw⟩

/-- Between the rounds all allocated timers are in the heap, and `hloop_cleanup` frees them. -/
theorem Idle.cleanup (h : Idle s) : ∃ s', s.cleanupTimers s.timers.nelts = some s' ∧ ∀ v, s'.event v = none := by
  obtain ⟨live,hh,hlive⟩ := h.good.holds
  refine cleanupTimers_spec _ hh (fun v hv => ?_) hh.nelts.ge
  obtain ⟨t,ht⟩ := Option.ne_none_iff_exists'.mp hv
  exact (hlive v).mpr (by simp [ht,isLive,h.live ht])

end Hloop

namespace LoopEvent

theorem step_idle {s : Hloop ι} (h : Idle s) (e : LoopEvent ι) :
    Sound (e.step s) fun x => Idle x.1 ∧ ∀ y ∈ x.2, y.2.Nodup := by
  cases e with
  | call c => exact (h.issue c).map fun s' hs' => ⟨hs'.1,fun y hy => absurd hy List.not_mem_nil⟩
  | round now cb => exact (h.round cb now).map fun x hx => ⟨hx.idle,fun y hy => List.mem_singleton.mp hy ▸ hx.nodup⟩

theorem run_idle {s : Hloop ι} (h : Idle s) (es : List (LoopEvent ι)) :
    Sound (run es s) fun x => Idle x.1 ∧ ∀ y ∈ x.2, y.2.Nodup := by
  induction es generalizing s with
  | nil => exact ⟨h,fun y hy => absurd hy List.not_mem_nil⟩
  | cons e es ih =>
    refine (step_idle h e).bind fun x hx => (ih hx.1).bind fun z hz => ⟨hz.1,fun y hy => ?_⟩
    exact (List.mem_append.mp hy).elim (hx.2 y) (hz.2 y)

/-- No run crashes, whatever allowed calls the callbacks make. After a run the heap and the counters are right, no
timer was called twice in a round, and none is lost: `hloop_cleanup` frees all that are allocated. -/
theorem run_never_crashes (es : List (LoopEvent ι)) : run es {} ≠ .error .crash ∧
    ∀ s log, run es {} = .ok (s,log) → Idle s ∧ s.timers.nelts = s.ntimers ∧ (∀ y ∈ log, y.2.Nodup) ∧
      ∃ s', s.cleanupTimers s.timers.nelts = some s' ∧ ∀ v, s'.event v = none := by
  have hsound := run_idle Idle.empty es
  refine ⟨hsound.ne_crash,fun s log hrun => ?_⟩
  rw [hrun] at hsound
  exact ⟨hsound.1,hsound.1.good.nelts,hsound.2,hsound.1.cleanup⟩

theorem run_never_crashes_once : ∃ s : Hloop ℕ, ∃ log,
    run [.call (.add 1 0 1 2),.round 1500 fun _ _ => []] {} = .ok (s,log) ∧ Idle s := by
  have hrun : (do
      let x ← run [.call (.add 1 0 1 2),.round 1500 fun _ _ => []] ({} : Hloop ℕ)
      .ok x.2 : Except Fault (Log ℕ)).toOption = some [(1500,[1])] := by decide +kernel
  obtain ⟨⟨s,log⟩,hrun,-⟩ := ok_of_bind hrun
  exact ⟨s,log,hrun,((run_never_crashes _).2 s log hrun).1⟩

variable {s : Hloop ι} {v : ι}

/-- Why a timer of the list of pending events must not be deleted after it was reset: it is freed at once, so that
the end of its own turn, and the loop that comes to it, touch freed memory. -/
theorem reset_del_crashes {t : Htimer} {rest : List ι} (g : Good s rest) (hv : s.event v = some t) (timeout : UInt32) :
    ∃ s', (do (← s.htimerReset v timeout).htimerDel v) = some s' ∧ s'.event v = none ∧ s'.settle v = none ∧
      ∀ cb later, pendingsLoop cb (v :: later) s' = .error .crash := by
  obtain ⟨u,timers,n,a,hreset,g',hactive,hpending⟩ := g.reset hv timeout
  obtain ⟨live,hh,hlive⟩ := g'.holds
  have hu := event_write s v timers n a (some u)
  obtain ⟨timers',hdel,-⟩ := htimerDel_active hh hu (mem_live hlive hu) hactive
  rw [if_neg (by simp [hpending])] at hdel
  rw [hreset,Option.bind_eq_bind,Option.bind_some]
  refine ⟨_,hdel,event_write _ _ _ _ _ none,?_,fun cb later => ?_⟩
  · rw [settle,event_write]
    rfl
  · rw [pendingsLoop,event_write]

/-- A timer that is due is on the list of pending events when it is reset and deleted. -/
theorem reset_del_crashes_once : ∃ s s' : Hloop ℕ, s.pendings = [1] ∧ (s.event 1).any Htimer.pending = true ∧
    (do (← s.htimerReset 1 0).htimerDel 1) = some s' ∧ s'.settle 1 = none ∧
      pendingsLoop (fun _ _ => []) s.pendings s' = .error .crash := by
  have hrun : ((do
      let x ← run [.call (.add 1 0 1 2)] ({} : Hloop ℕ)
      let s := x.1.hloopUpdateTime 1500
      let s ← (if s.ntimers = 0 then .ok s else s.hloopProcessTimers.elim (.error .crash) fun x => .ok x.1)
      .ok (s.pendings,s.event 1)) : Except Fault (List ℕ × Option Htimer)).toOption =
      some ([1],some ⟨1,1,2000,false,true,true⟩) := by decide +kernel
  obtain ⟨x,hrun,hprocess⟩ := ok_of_bind hrun
  have hidle := run_idle Idle.empty [.call (.add 1 0 1 2)]
  rw [hrun] at hidle
  obtain ⟨s,due,hdue,hfired⟩ := (hidle.1.updateTime 1500).processTimers
  dsimp only at hprocess
  rw [hdue] at hprocess
  obtain ⟨hpendings,hv⟩ := Prod.mk.inj (Option.some.inj hprocess)
  obtain ⟨s',hcalls,-,hsettle,hloop⟩ := reset_del_crashes hfired.good hv 0
  exact ⟨s,s',hpendings,by rw [hv]; rfl,hcalls,hsettle,by rw [hpendings]; exact hloop _ []⟩

/-- A round is one look at the alarm of a timer. -/
theorem look_round {cb : Hloop ι → ι → List (Call ι)} {now : ℕ} {x : Hloop ι × List ι} (h : Idle s)
    (hx : Round cb now s x) (hspares : Hloop.Spares cb v) (n : ℕ) :
    Alarm.look ((s.event v).map Htimer.alarm,n) now =
      ((x.1.event v).map Htimer.alarm,n + [(now,x.2)].countP (v ∈ ·.2)) := by
  cases hv : s.event v with
  | none =>
    have hout : v ∉ x.2 := fun hmem => by simpa [hv,isDue] using hx.due v hmem
    rw [hx.others v hspares hv]
    simp [Alarm.look,hout]
  | some t =>
    obtain ⟨hcalled,hevent⟩ := hx.spared v t hspares hv
    rw [hevent,Option.map_some,Alarm.look]
    by_cases hle : t.nextTimeout ≤ now
    · rw [if_pos hle,Htimer.alarm_expired (h.live hv),if_pos (show t.alarm.deadline ≤ now from hle)]
      simp [hcalled.mpr hle]
    · rw [if_neg hle,if_neg (show ¬t.alarm.deadline ≤ now from hle)]
      simp [mt hcalled.mp hle]

theorem step_alarm (h : Idle s) {e : LoopEvent ι} (hspares : e.Spares v) (n : ℕ) :
    Sound (e.step s) fun y => Idle y.1 ∧ ((y.1.event v).map Htimer.alarm,n + y.2.countP (v ∈ ·.2)) =
      (y.2.map Prod.fst).foldl Alarm.look ((s.event v).map Htimer.alarm,n) := by
  cases e with
  | call c =>
    refine (h.issue c).map fun s' hs' => ⟨hs'.1,?_⟩
    rw [hs'.2 v (Ne.symm hspares)]
    rfl
  | round now cb => exact (h.round cb now).map fun x hx => ⟨hx.idle,(look_round h hx hspares n).symm⟩

theorem run_alarm (h : Idle s) {es : List (LoopEvent ι)} (hspares : ∀ e ∈ es, e.Spares v) (n : ℕ) :
    Sound (run es s) fun y => Idle y.1 ∧ ((y.1.event v).map Htimer.alarm,n + y.2.countP (v ∈ ·.2)) =
      (y.2.map Prod.fst).foldl Alarm.look ((s.event v).map Htimer.alarm,n) := by
  induction es generalizing s n with
  | nil => exact ⟨h,rfl⟩
  | cons e es ih =>
    have hlater : ∀ e ∈ es, e.Spares v := fun e he => hspares e (List.mem_cons_of_mem _ he)
    refine (step_alarm h (hspares e List.mem_cons_self) n).bind fun x hx =>
      (ih hx.1 hlater (n + x.2.countP (v ∈ ·.2))).bind fun y hy => ⟨hy.1,?_⟩
    simp only [List.countP_append,← Nat.add_assoc,List.map_append,List.foldl_append,← hx.2]
    exact hy.2

/-- As long as nothing is called on a timer, a round calls it back when a point of its own schedule went by since
the earlier rounds, and it was not called as often as it repeats. -/
theorem called_as_alarm {es₀ es : List (LoopEvent ι)} {log₀ log : Log ι} {t : Htimer} {s₁ s₂ : Hloop ι} {now : ℕ}
    {called : List ι} {cb : Hloop ι → ι → List (Call ι)} (h₀ : run es₀ {} = .ok (s,log₀)) (hv : s.event v = some t)
    (hes : ∀ e ∈ es, e.Spares v) (h : run es s = .ok (s₁,log)) (hcb : Hloop.Spares cb v)
    (h' : hloopProcessEvents cb now s₁ = .ok (s₂,called)) :
    v ∈ called ↔
      (∃ k, t.nextTimeout + k * t.period ≤ now ∧ ∀ round ∈ log, round.1 < t.nextTimeout + k * t.period) ∧
        (t.repeats = 0 ∨ t.repeats = infinite ∨ log.countP (v ∈ ·.2) < t.repeats.toNat) := by
  have hidle := run_idle Idle.empty es₀
  rw [h₀] at hidle
  have hrun := run_alarm hidle.1 hes 0
  rw [h] at hrun
  obtain ⟨hidle₁,hlooks⟩ := hrun
  have hround := hidle₁.round cb now
  rw [h'] at hround
  have hlook := look_round hidle₁ hround hcb (log.countP (v ∈ ·.2))
  rw [Nat.zero_add,hv,Option.map_some] at hlooks
  have hfits := hidle.1.good.fits v t hv
  have hrings := Alarm.rings_iff t.alarm hfits.period_pos t.alarm_left_ne_zero (log.map Prod.fst) now
  rw [Alarm.looks_append,show Alarm.looks t.alarm (log.map Prod.fst) = _ from hlooks.symm,hlook,
    t.alarm_left_iff] at hrings
  have hcount : log.countP (v ∈ ·.2) + [(now,called)].countP (v ∈ ·.2) = log.countP (v ∈ ·.2) + 1 ↔ v ∈ called := by
    by_cases hmem : v ∈ called <;> simp [hmem]
  have hcome : (∃ x ∈ t.alarm.toCome (log.map Prod.fst), x ≤ now) ↔
      ∃ k, t.nextTimeout + k * t.period ≤ now ∧ ∀ round ∈ log, round.1 < t.nextTimeout + k * t.period := by
    constructor
    · rintro ⟨x,⟨⟨k,rfl⟩,hseen⟩,hle⟩
      exact ⟨k,hle,fun round hmem => hseen _ (List.mem_map_of_mem hmem)⟩
    · rintro ⟨k,hle,hseen⟩
      exact ⟨_,⟨⟨k,rfl⟩,List.forall_mem_map.mpr hseen⟩,hle⟩
  rw [← hcount,← hcome]
  exact hrings

theorem called_as_alarm_twice : ∃ s₁ s₂ : Hloop ℕ, ∃ called,
    hloopProcessEvents (fun _ _ => []) 3500 s₁ = .ok (s₂,called) ∧ 1 ∈ called := by
  have hrun : (do
      let x ← run [.call (.add 1 0 1 2)] {}
      let y ← run [.round 1500 fun _ _ => []] x.1
      let z ← hloopProcessEvents (fun _ _ => []) 3500 y.1
      .ok (x.1.event 1,y.2,z.2) : Except Fault (Option Htimer × Log ℕ × List ℕ)).toOption =
      some (some ⟨2,1,1000,false,true,false⟩,[(1500,[1])],[1]) := by decide +kernel
  obtain ⟨⟨s,log₀⟩,h₀,hrun⟩ := ok_of_bind hrun
  obtain ⟨⟨s₁,log⟩,h,hrun⟩ := ok_of_bind hrun
  obtain ⟨⟨s₂,called⟩,h',hrun⟩ := ok_of_bind hrun
  obtain ⟨hv,rfl,rfl⟩ : s.event 1 = some ⟨2,1,1000,false,true,false⟩ ∧ log = [(1500,[1])] ∧ called = [1] := by
    simpa [Except.toOption] using hrun
  have hes : ∀ e ∈ [LoopEvent.round 1500 fun (_ : Hloop ℕ) _ => []], e.Spares 1 := by
    intro e he
    rw [List.mem_singleton.mp he]
    exact fun _ _ _ hc => absurd hc List.not_mem_nil
  refine ⟨s₁,s₂,_,h',(called_as_alarm h₀ hv hes h (fun _ _ _ hc => absurd hc List.not_mem_nil) h').mpr ?_⟩
  exact ⟨⟨1,by decide,by decide⟩,.inr (.inr (by decide))⟩

end LoopEvent
end FDemo.Libhv
