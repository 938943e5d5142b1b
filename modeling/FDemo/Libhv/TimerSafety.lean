import FDemo.Foundation.Alarm
import FDemo.Libhv.HeapRuns
import FDemo.Libhv.Timers

/-! # The timers of a loop over whole runs

The heap holds the timers that are not marked as deleted, the counters of the loop are
right, and a timer that is marked is still on the list of pending events. As long as
no callback deletes a timer of this list that was reset, no timer on it is freed.
-/
namespace FDemo.Libhv
open Heap
variable {ι : Type} [DecidableEq ι]

/-- A number of things that have a property. -/
def Tally (n : ℕ) (f : ι → Bool) : Prop := ∃ S : Finset ι, (∀ v, v ∈ S ↔ f v = true) ∧ S.card = n

theorem Tally.update {n n' : ℕ} {f f' : ι → Bool} {v : ι} (h : Tally n f) (hoff : ∀ w, w ≠ v → f' w = f w)
    (hn : n' + (f v).toNat = n + (f' v).toNat) : Tally n' f' := by
  obtain ⟨S,hS,rfl⟩ := h
  have hmem : ∀ w, w ≠ v → (f' w = true ↔ w ∈ S) := fun w hw => by rw [hoff w hw,hS]
  cases hv : f' v with
  | false =>
    refine ⟨S.erase v,fun w => ?_,?_⟩
    · by_cases hw : w = v
      · simp [hw,hv]
      · rw [Finset.mem_erase,hmem w hw,and_iff_right hw]
    · by_cases hvS : v ∈ S
      · rw [Finset.card_erase_of_mem hvS]
        rw [hv,(hS v).mp hvS] at hn
        simp only [Bool.toNat_true,Bool.toNat_false] at hn
        omega
      · rw [Finset.erase_eq_of_notMem hvS]
        rw [hv,Bool.eq_false_iff.mpr (mt (hS v).mpr hvS)] at hn
        simp only [Bool.toNat_false] at hn
        omega
  | true =>
    refine ⟨insert v S,fun w => ?_,?_⟩
    · by_cases hw : w = v
      · simp [hw,hv]
      · rw [Finset.mem_insert,hmem w hw,or_iff_right hw]
    · by_cases hvS : v ∈ S
      · rw [Finset.insert_eq_of_mem hvS]
        rw [hv,(hS v).mp hvS] at hn
        omega
      · rw [Finset.card_insert_of_notMem hvS]
        rw [hv,Bool.eq_false_iff.mpr (mt (hS v).mpr hvS)] at hn
        simp only [Bool.toNat_true,Bool.toNat_false] at hn
        omega

/-- What holds of an allocated timer, on the list of pending events or not. -/
structure Htimer.Fits (t : Htimer) (listed : Prop) : Prop where
  timeout : t.timeout ≠ 0
  active : t.destroy = false → t.active = true
  pending : t.pending = true → listed
  destroy : t.destroy = true → t.pending = true

omit [DecidableEq ι] in
theorem Tally.pos {n : ℕ} {f : ι → Bool} {v : ι} (h : Tally n f) (hv : f v = true) : 0 < n := by
  obtain ⟨S,hS,rfl⟩ := h
  exact Finset.card_pos.mpr ⟨v,(hS v).mpr hv⟩

omit [DecidableEq ι] in
theorem Tally.sub {n : ℕ} {f f' : ι → Bool} (h : Tally n f) (hf : ∀ v, f' v = true → f v = true) :
    ∃ m ≤ n, Tally m f' := by
  obtain ⟨S,hS,rfl⟩ := h
  refine ⟨(S.filter (f' · = true)).card,Finset.card_filter_le _ _,_,fun v => ?_,rfl⟩
  rw [Finset.mem_filter,hS]
  exact and_iff_right_of_imp (hf v)

/-- A run that does not crash, and what holds of its result. -/
def Sound {α : Type} (x : Except Fault α) (P : α → Prop) : Prop :=
  match x with
  | .ok a => P a
  | .error f => f = .misuse

section Sound
variable {α β : Type} {x : Except Fault α} {f : α → Except Fault β} {P P' : α → Prop} {Q : β → Prop}

theorem Sound.bind (hx : Sound x P) (hf : ∀ a, P a → Sound (f a) Q) : Sound (x >>= f) Q := by
  cases x with
  | ok a => exact hf a hx
  | error e => exact hx

theorem Sound.imp (hx : Sound x P) (h : ∀ a, P a → P' a) : Sound x P' := by
  cases x with
  | ok a => exact h a hx
  | error e => exact hx

theorem Sound.elim {y : Option α} {a : α} (hy : y = some a) (h : P a) : Sound (y.elim (.error .crash) .ok) P := by
  subst hy
  exact h

theorem Sound.ne_crash (hx : Sound x P) : x ≠ .error .crash := by
  rintro rfl
  cases hx

end Sound

/-- What the callbacks leave of a timer they do not touch. -/
def Htimer.settled (t : Htimer) : Option Htimer := if t.destroy then none else some { t with pending := false }

namespace Hloop

def isLive (t : Option Htimer) : Bool := t.any fun t => !t.destroy
def isActive (t : Option Htimer) : Bool := t.any fun t => t.active

/-- The invariant of a loop, with the rest of the list of pending events. -/
structure Good (s : Hloop ι) (rest : List ι) : Prop where
  holds : ∃ live, Holds s.nextTimeout s.timers live ∧ ∀ v, v ∈ live ↔ isLive (s.event v) = true
  ntimers : Tally s.ntimers fun v => isLive (s.event v)
  nactives : Tally s.nactives fun v => isActive (s.event v)
  fits : ∀ v t, s.event v = some t → t.Fits (v ∈ rest)
  listed : ∀ v ∈ rest, s.event v ≠ none
  nodup : rest.Nodup

/-- The loop after the memory of `v`, the heap and the counters are written. -/
def write (s : Hloop ι) (v : ι) (t : Option Htimer) (timers : Heap ι) (ntimers nactives : ℕ) : Hloop ι :=
  { s with event := Function.update s.event v t, timers := timers, ntimers := ntimers, nactives := nactives }

section Write
variable (s : Hloop ι) (v : ι) (t t' : Htimer) (timers : Heap ι) (n a : ℕ)

theorem write_self {t : Option Htimer} (h : s.event v = t) : s.write v t s.timers s.ntimers s.nactives = s := by
  rw [write,← h,Function.update_eq_self]

@[simp] theorem event_write (t : Option Htimer) : (s.write v t timers n a).event v = t := Function.update_self _ _ _

theorem event_write_of_ne (t : Option Htimer) {w : ι} (hw : w ≠ v) : (s.write v t timers n a).event w = s.event w :=
  Function.update_of_ne hw _ _

@[simp] theorem put_write : (s.write v (some t) timers n a).put v t' = s.write v (some t') timers n a := by
  simp [put,write]

@[simp] theorem free_write : (s.write v (some t) timers n a).free v = s.write v none timers n a := by
  simp [free,write]

theorem nextTimeout_write_of_ne (t : Option Htimer) {w : ι} (hw : w ≠ v) :
    (s.write v t timers n a).nextTimeout w = s.nextTimeout w := by
  rw [nextTimeout,event_write_of_ne _ _ _ _ _ _ hw,nextTimeout]

theorem nextTimeout_write :
    (s.write v (some t) timers n a).nextTimeout = Function.update s.nextTimeout v t.nextTimeout := by
  funext w
  by_cases hw : w = v
  · rw [hw,nextTimeout,event_write,Function.update_self]
  · rw [nextTimeout_write_of_ne _ _ _ _ _ _ hw,Function.update_of_ne hw]

theorem eventActive_write : (s.write v (some t) timers n a).eventActive v =
    some (s.write v (some { t with active := true }) timers n (if t.active then a else a + 1)) := by
  rw [eventActive,event_write]
  cases h : t.active with
  | false => simp [h,write,put]
  | true =>
    have ht : { t with active := true } = t := by rw [← h]
    simp [h,ht]

theorem eventInactive_write : (s.write v (some t) timers n a).eventInactive v =
    some (s.write v (some { t with active := false }) timers n (if t.active then a - 1 else a)) := by
  rw [eventInactive,event_write]
  cases h : t.active with
  | false =>
    have ht : { t with active := false } = t := by rw [← h]
    simp [h,ht]
  | true => simp [h,write,put]

theorem eventDel_write : (s.write v (some t) timers n a).eventDel v =
    some (s.write v (if t.pending then some { t with active := false } else none) timers n
      (if t.active then a - 1 else a)) := by
  rw [eventDel,eventInactive_write]
  cases h : t.pending <;> simp

theorem eventReset_write : (s.write v (some t) timers n a).eventReset v =
    some (s.write v (some { t with destroy := false, active := true, pending := false }) timers n
      (if t.active then a else a + 1)) := by
  rw [eventReset,event_write]
  simp [eventActive_write]

variable {s v timers} {live : Finset ι}

/-- A timer that is not in the heap is inserted with any timeout. -/
theorem heapInsert_write (hh : Holds s.nextTimeout timers live) (hv : v ∉ live) :
    ∃ timers', (s.write v (some t) timers n a).heapInsert v = some (s.write v (some t) timers' n a) ∧
      Holds (Function.update s.nextTimeout v t.nextTimeout) timers' (insert v live) := by
  have hkey : ∀ w ∈ live, Function.update s.nextTimeout v t.nextTimeout w = s.nextTimeout w :=
    fun w hw => Function.update_of_ne (ne_of_mem_of_not_mem hw hv) _ _
  obtain ⟨timers',hs,hh'⟩ := (hh.congr hkey).insert hv
  refine ⟨timers',?_,hh'⟩
  rw [← nextTimeout_write s v t timers n a] at hs
  exact congrArg (Option.map _) hs

/-- A timer in the heap with its own timeout is removed. -/
theorem heapRemove_write (hh : Holds s.nextTimeout timers live) (hv : v ∈ live) (ht : t.nextTimeout = s.nextTimeout v) :
    ∃ timers', (s.write v (some t) timers n a).heapRemove v = some (s.write v (some t) timers' n a) ∧
      Holds s.nextTimeout timers' (live.erase v) := by
  have hkey : (s.write v (some t) timers n a).nextTimeout = s.nextTimeout := by
    rw [nextTimeout_write,ht,Function.update_eq_self]
  obtain ⟨timers',hs,hh'⟩ := hh.remove hv
  refine ⟨timers',?_,hh'⟩
  rw [← hkey] at hs
  exact congrArg (Option.map _) hs

theorem holds_write (hh : Holds s.nextTimeout timers live) (hv : v ∉ live) (t : Option Htimer) :
    Holds (s.write v t timers n a).nextTimeout timers live :=
  hh.congr fun _ hw => nextTimeout_write_of_ne _ _ _ _ _ _ (ne_of_mem_of_not_mem hw hv)

theorem htimerDelInner_write (hh : Holds s.nextTimeout timers live) (hlive : v ∈ live ↔ t.destroy = false)
    (ht : t.nextTimeout = s.nextTimeout v) : ∃ timers', (s.write v (some t) timers n a).htimerDelInner v =
      some (s.write v (some { t with destroy := true }) timers' (if t.destroy then n else n - 1) a) ∧
      Holds s.nextTimeout timers' (live.erase v) := by
  rw [htimerDelInner,event_write]
  cases hd : t.destroy with
  | true =>
    have hout : v ∉ live := by simp [hlive,hd]
    have ht : { t with destroy := true } = t := by rw [← hd]
    refine ⟨timers,?_,by rwa [Finset.erase_eq_of_notMem hout]⟩
    simp [hd,ht]
  | false =>
    obtain ⟨timers',hremove,hh'⟩ := heapRemove_write t n a hh (hlive.mpr hd) ht
    refine ⟨timers',?_,hh'⟩
    simp only [Option.bind_eq_bind,Option.bind_some,hd,Bool.false_eq_true,if_false,hremove]
    simp [put,write]

end Write

section Steps
variable {s s' : Hloop ι} {rest rest' : List ι} {v : ι}

theorem live_insert {live : Finset ι} (hlive : ∀ w, w ∈ live ↔ isLive (s.event w) = true) {t : Option Htimer}
    (ht : isLive t = true) (w : ι) : w ∈ insert v live ↔ isLive (Function.update s.event v t w) = true := by
  by_cases hw : w = v
  · simp [hw,ht]
  · rw [Finset.mem_insert,or_iff_right hw,Function.update_of_ne hw,hlive]

theorem live_erase {live : Finset ι} (hlive : ∀ w, w ∈ live ↔ isLive (s.event w) = true) {t : Option Htimer}
    (ht : isLive t = false) (w : ι) : w ∈ live.erase v ↔ isLive (Function.update s.event v t w) = true := by
  by_cases hw : w = v
  · simp [hw,ht]
  · rw [Finset.mem_erase,and_iff_right hw,Function.update_of_ne hw,hlive]

/-- A step that writes one timer keeps the invariant when this timer is right. -/
theorem Good.step (g : Good s rest) {t : Option Htimer} (hevent : s'.event = Function.update s.event v t)
    (hholds : ∃ live, Holds s'.nextTimeout s'.timers live ∧ ∀ w, w ∈ live ↔ isLive (s'.event w) = true)
    (hn : s'.ntimers + (isLive (s.event v)).toNat = s.ntimers + (isLive t).toNat)
    (ha : s'.nactives + (isActive (s.event v)).toNat = s.nactives + (isActive t).toNat)
    (hfits : ∀ u, t = some u → u.Fits (v ∈ rest')) (hrest : ∀ w, w ≠ v → (w ∈ rest' ↔ w ∈ rest))
    (hlisted : v ∈ rest' → t ≠ none) (hnodup : rest'.Nodup) : Good s' rest' := by
  have hself : s'.event v = t := by rw [hevent,Function.update_self]
  have hoff : ∀ w, w ≠ v → s'.event w = s.event w := fun w hw => by rw [hevent,Function.update_of_ne hw]
  refine ⟨hholds,?_,?_,fun w u hu => ?_,fun w hw => ?_,hnodup⟩
  · exact g.ntimers.update (fun w hw => by rw [hoff w hw]) (by rw [hself]; exact hn)
  · exact g.nactives.update (fun w hw => by rw [hoff w hw]) (by rw [hself]; exact ha)
  · by_cases hwv : w = v
    · subst hwv
      exact hfits u (hself.symm.trans hu)
    · rw [hrest w hwv]
      exact g.fits w u ((hoff w hwv).symm.trans hu)
  · by_cases hwv : w = v
    · subst hwv
      rw [hself]
      exact hlisted hw
    · rw [hoff w hwv]
      exact g.listed w ((hrest w hwv).mp hw)

theorem Good.add (g : Good s rest) (hv : s.event v = none) (now : ℕ) {timeout : UInt32} (htimeout : timeout ≠ 0)
    (repeats : UInt32) : ∃ t timers n a, s.htimerAdd v now timeout repeats =
      some ((s.hloopUpdateTime now).write v t timers n a) ∧
      Good ((s.hloopUpdateTime now).write v t timers n a) rest := by
  obtain ⟨live,hh,hlive⟩ := g.holds
  have hout : v ∉ live := by simp [hlive,hv,isLive]
  let t : Htimer := ⟨repeats,timeout,firstTimeout now timeout,false,false,false⟩
  obtain ⟨timers,hinsert,hh'⟩ := heapInsert_write (s := s.hloopUpdateTime now) t s.ntimers s.nactives (hh.clear hout)
    hout
  have hrest : v ∉ rest := fun h => g.listed v h hv
  refine ⟨some { t with active := true },timers,s.ntimers + 1,s.nactives + 1,?_,
    g.step rfl ⟨_,?_,live_insert hlive rfl⟩ ?_ ?_ ?_ (fun _ _ => Iff.rfl) (fun h => absurd h hrest) g.nodup⟩
  · have hput : ({ s.hloopUpdateTime now with timers := s.timers.clear v }).put v t =
        (s.hloopUpdateTime now).write v (some t) (s.timers.clear v) s.ntimers s.nactives := rfl
    rw [htimerAdd,if_neg htimeout]
    show (heapInsert ({ s.hloopUpdateTime now with timers := s.timers.clear v }.put v t) v).bind _ = _
    rw [hput,hinsert,Option.bind_some]
    show (eventActive _ v).bind _ = _
    rw [eventActive_write]
    rfl
  · rw [nextTimeout_write]
    exact hh'
  · rw [hv]
    rfl
  · rw [hv]
    rfl
  · rintro u ⟨⟩
    exact ⟨htimeout,fun _ => rfl,nofun,nofun⟩

omit [DecidableEq ι] in
theorem mem_live {live : Finset ι} (hlive : ∀ w, w ∈ live ↔ isLive (s.event w) = true)
    {t : Htimer} (hv : s.event v = some t) : v ∈ live ↔ t.destroy = false := by
  simp [hlive,hv,isLive]

theorem restart_fields (t : Htimer) (curHrtime : ℕ) (timeout : UInt32) (ht : t.timeout ≠ 0) :
    (t.restart curHrtime timeout).active = t.active ∧ (t.restart curHrtime timeout).timeout ≠ 0 := by
  unfold Htimer.restart
  by_cases hzero : 0 < timeout
  · have hne := UInt32.pos_iff_ne_zero.mp hzero
    split_ifs <;> exact ⟨rfl,hne⟩
  · split_ifs <;> exact ⟨rfl,ht⟩

/-- `htimer_reset` takes the timer out of the heap, if it is still there. -/
theorem unlink {live : Finset ι} (hh : Holds s.nextTimeout s.timers live) {t : Htimer} (hv : s.event v = some t)
    (hvlive : v ∈ live ↔ t.destroy = false) :
    ∃ timers n, (if t.destroy then some { s with ntimers := s.ntimers + 1 } else s.heapRemove v) =
      some (s.write v (some t) timers n s.nactives) ∧ Holds s.nextTimeout timers (live.erase v) ∧
      n + (isLive (some t)).toNat = s.ntimers + 1 := by
  have hself := write_self s v hv
  cases hd : t.destroy with
  | true =>
    refine ⟨s.timers,s.ntimers + 1,?_,?_,by simp [isLive,hd]⟩
    · rw [if_pos rfl]
      exact congrArg (fun r : Hloop ι => some { r with ntimers := s.ntimers + 1 }) hself.symm
    · rwa [Finset.erase_eq_of_notMem (by simp [hvlive,hd])]
  | false =>
    obtain ⟨timers,hremove,hh'⟩ := heapRemove_write t s.ntimers s.nactives hh (hvlive.mpr hd) (by rw [nextTimeout,hv])
    refine ⟨timers,s.ntimers,?_,hh',by simp [isLive,hd]⟩
    rw [if_neg Bool.false_ne_true,← hremove,hself]

/-- `htimer_reset` leaves a timer that is active and not pending. -/
theorem Good.reset (g : Good s rest) {t : Htimer} (hv : s.event v = some t) (timeout : UInt32) :
    ∃ u timers n a, s.htimerReset v timeout = some (s.write v (some u) timers n a) ∧
      Good (s.write v (some u) timers n a) rest ∧ u.active = true ∧ u.pending = false := by
  obtain ⟨live,hh,hlive⟩ := g.holds
  obtain ⟨timers₁,n,hunlink,hh₁,hn⟩ := unlink hh hv (mem_live hlive hv)
  obtain ⟨timers,hinsert,hh'⟩ := heapInsert_write (t.restart s.curHrtime timeout) n s.nactives hh₁
    (Finset.notMem_erase v live)
  have hinsertErase : insert v (live.erase v) = insert v live := by
    ext w
    by_cases hw : w = v <;> simp [hw]
  rw [hinsertErase] at hh'
  obtain ⟨hactive,htimeout⟩ := restart_fields t s.curHrtime timeout (g.fits v t hv).timeout
  refine ⟨{ t.restart s.curHrtime timeout with destroy := false, active := true, pending := false },timers,n,
    if (t.restart s.curHrtime timeout).active then s.nactives else s.nactives + 1,?_,
    g.step rfl ⟨_,?_,live_insert hlive rfl⟩ ?_ ?_ ?_ (fun _ _ => Iff.rfl) (fun _ => by simp) g.nodup,rfl,rfl⟩
  · rw [htimerReset,hv]
    simp only [Option.bind_eq_bind,Option.bind_some,hunlink,put_write]
    show ((s.write v (some (t.restart s.curHrtime timeout)) timers₁ n s.nactives).heapInsert v).bind _ = _
    rw [hinsert,Option.bind_some,eventReset_write]
  · rw [nextTimeout_write]
    exact hh'
  · rw [hv]
    exact hn
  · rw [hv,hactive]
    show (if t.active then s.nactives else s.nactives + 1) + t.active.toNat = s.nactives + 1
    cases t.active <;> rfl
  · rintro - ⟨⟩
    exact ⟨htimeout,fun _ => rfl,nofun,nofun⟩

/-- `htimer_del` of an active timer: one that is pending stays until its turn. -/
theorem htimerDel_active {live : Finset ι} (hh : Holds s.nextTimeout s.timers live) {t : Htimer}
    (hv : s.event v = some t) (hvlive : v ∈ live ↔ t.destroy = false) (ha : t.active = true) :
    ∃ timers, s.htimerDel v = some (s.write v
      (if t.pending then some { t with destroy := true, active := false } else none) timers
      (if t.destroy then s.ntimers else s.ntimers - 1) (s.nactives - 1)) ∧
      Holds s.nextTimeout timers (live.erase v) := by
  obtain ⟨timers,hdel,hh'⟩ := htimerDelInner_write t s.ntimers s.nactives hh hvlive (by rw [nextTimeout,hv])
  rw [write_self s v hv] at hdel
  refine ⟨timers,?_,hh'⟩
  rw [htimerDel,hv]
  simp only [Option.bind_eq_bind,Option.bind_some,ha,if_true,hdel,eventDel_write]

theorem Good.del (g : Good s rest) {t : Htimer} (hv : s.event v = some t)
    (hlisted : v ∈ rest → t.active = true → t.pending = true) :
    ∃ t timers n a, s.htimerDel v = some (s.write v t timers n a) ∧ Good (s.write v t timers n a) rest := by
  obtain ⟨live,hh,hlive⟩ := g.holds
  have hfits := g.fits v t hv
  cases ha : t.active with
  | false =>
    have hself := write_self s v hv
    refine ⟨some t,s.timers,s.ntimers,s.nactives,?_,by rwa [hself]⟩
    rw [htimerDel,hv,hself]
    simp [ha]
  | true =>
    obtain ⟨timers,hdel,hh'⟩ := htimerDel_active hh hv (mem_live hlive hv) ha
    have hpos := g.nactives.pos (show isActive (s.event v) = true by rw [hv]; exact ha)
    refine ⟨_,timers,_,_,hdel,g.step rfl ⟨_,holds_write _ _ hh' (Finset.notMem_erase v live) _,live_erase hlive ?_⟩
      ?_ ?_ ?_ (fun _ _ => Iff.rfl) (fun h => ?_) g.nodup⟩
    · cases t.pending <;> rfl
    · have hnpos : t.destroy = false → 0 < s.ntimers := fun hd =>
        g.ntimers.pos (show isLive (s.event v) = true by simp [hv,isLive,hd])
      rw [hv]
      show (if t.destroy then s.ntimers else s.ntimers - 1) + (!t.destroy).toNat = _
      cases hp : t.pending <;> cases hd : t.destroy <;> simp [isLive] <;> exact Nat.sub_add_cancel (hnpos hd)
    · rw [hv]
      show s.nactives - 1 + t.active.toNat = _
      rw [ha]
      cases hp : t.pending <;> exact Nat.sub_add_cancel hpos
    · intro u hu
      split_ifs at hu with hp
      obtain rfl := Option.some.inj hu
      exact ⟨hfits.timeout,nofun,hfits.pending,fun _ => hp⟩
    · rw [if_pos (hlisted h ha)]
      exact Option.some_ne_none _

/-- The step writes no timer but those of `touched`, and leaves the pending events. -/
structure Frame (touched : ι → Prop) (s s' : Hloop ι) : Prop where
  event : ∀ w, ¬touched w → s'.event w = s.event w
  pendings : s'.pendings = s.pendings
  npendings : s'.npendings = s.npendings

omit [DecidableEq ι] in
theorem Frame.refl (touched : ι → Prop) (s : Hloop ι) : Frame touched s s := ⟨fun _ _ => rfl,rfl,rfl⟩

omit [DecidableEq ι] in
theorem Frame.trans {touched : ι → Prop} {s₁ s₂ s₃ : Hloop ι} (h : Frame touched s₁ s₂) (h' : Frame touched s₂ s₃) :
    Frame touched s₁ s₃ :=
  ⟨fun w hw => (h'.event w hw).trans (h.event w hw),h'.pendings.trans h.pendings,h'.npendings.trans h.npendings⟩

theorem frame_write (s : Hloop ι) (v : ι) (t : Option Htimer) (timers : Heap ι) (n a : ℕ) :
    Frame (· = v) s (s.write v t timers n a) := ⟨fun _ hw => event_write_of_ne _ _ _ _ _ _ hw,rfl,rfl⟩

/-- An allowed call succeeds and keeps the invariant. -/
theorem Good.call (g : Good s rest) {c : Call ι} (hc : c.allowed rest s = true) :
    ∃ s', c.run s = some s' ∧ Good s' rest ∧ Frame (· = c.timer) s s' := by
  cases c with
  | add v now timeout repeats =>
    have hv : s.event v = none := Option.isNone_iff_eq_none.mp hc
    by_cases htimeout : timeout = 0
    · exact ⟨s,if_pos htimeout,g,.refl _ s⟩
    · obtain ⟨t,timers,n,a,hrun,g'⟩ := g.add hv now htimeout repeats
      exact ⟨_,hrun,g',fun _ hw => event_write_of_ne _ _ _ _ _ _ hw,rfl,rfl⟩
  | reset v timeout =>
    obtain ⟨t,hv⟩ := Option.isSome_iff_exists.mp hc
    obtain ⟨u,timers,n,a,hrun,g',-⟩ := g.reset hv timeout
    exact ⟨_,hrun,g',frame_write s v (some u) timers n a⟩
  | del v =>
    obtain ⟨t,hv,ht⟩ := (Option.any_eq_true _ _).mp hc
    have hlisted : v ∈ rest → t.active = true → t.pending = true := by simpa [or_iff_not_imp_left] using ht
    obtain ⟨t,timers,n,a,hrun,g'⟩ := g.del hv hlisted
    exact ⟨_,hrun,g',frame_write s v t timers n a⟩

theorem Good.issue (g : Good s rest) (c : Call ι) :
    Sound (c.issue rest s) fun s' => Good s' rest ∧ Frame (· = c.timer) s s' := by
  unfold Call.issue
  split_ifs with hc
  · obtain ⟨s',hrun,h⟩ := g.call hc
    exact .elim hrun h
  · rfl

/-- The calls of a callback. -/
theorem Good.issues (g : Good s rest) (cs : List (Call ι)) :
    Sound (cs.foldlM (Call.issue rest) s) fun s' => Good s' rest ∧ Frame (fun w => ∃ c ∈ cs, w = c.timer) s s' := by
  induction cs generalizing s with
  | nil => exact ⟨g,.refl _ s⟩
  | cons c cs ih =>
    rw [List.foldlM_cons]
    refine (g.issue c).bind fun s₁ h₁ => (ih h₁.1).imp fun s' h' => ⟨h'.1,?_⟩
    refine Frame.trans ⟨fun w hw => h₁.2.event w fun h => hw ⟨c,List.mem_cons_self,h⟩,h₁.2.pendings,h₁.2.npendings⟩
      ⟨fun w hw => h'.2.event w fun h => hw ?_,h'.2.pendings,h'.2.npendings⟩
    obtain ⟨c',hc',h⟩ := h
    exact ⟨c',List.mem_cons_of_mem c hc',h⟩

/-- After its turn a pending event is not listed any more, and one that is marked is freed. -/
theorem Good.settle {t : Htimer} (g : Good s (v :: rest)) (hv : s.event v = some t) :
    ∃ s', s.settle v = some s' ∧ Good s' rest ∧ Frame (· = v) s s' ∧
      s'.event v = if t.destroy then none else some { t with pending := false } := by
  obtain ⟨live,hh,hlive⟩ := g.holds
  have hvlive := mem_live hlive hv
  have hfits := g.fits v t hv
  obtain ⟨hout,hnodup⟩ := List.nodup_cons.mp g.nodup
  have hput : s.put v { t with pending := false } =
      s.write v (some { t with pending := false }) s.timers s.ntimers s.nactives := rfl
  have hrest : ∀ w, w ≠ v → (w ∈ rest ↔ w ∈ v :: rest) := fun w hw => by simp [hw]
  rw [Hloop.settle,hv,Option.bind_eq_bind,Option.bind_some,hput]
  by_cases hd : t.destroy = true
  · have hlive' : v ∉ live := by simp [hvlive,hd]
    refine ⟨s.write v none s.timers s.ntimers (if t.active then s.nactives - 1 else s.nactives),?_,
      g.step rfl ⟨live,holds_write _ _ hh hlive' _,?_⟩ ?_ ?_ nofun hrest (fun h => absurd h hout) hnodup,
      frame_write s v _ _ _ _,?_⟩
    · rw [if_pos hd,eventDel_write]
      rfl
    · intro w
      rw [← Finset.erase_eq_of_notMem hlive']
      exact live_erase hlive rfl w
    · simp [hv,isLive,hd,write]
    · have hpos : t.active = true → 0 < s.nactives := fun ha =>
        g.nactives.pos (show isActive (s.event v) = true by simp [isActive,hv,ha])
      rw [hv]
      show (if t.active then s.nactives - 1 else s.nactives) + t.active.toNat = s.nactives
      cases ha : t.active with
      | false => rfl
      | true => exact Nat.sub_add_cancel (hpos ha)
    · rw [event_write,if_pos hd]
  · have hd' : t.destroy = false := Bool.eq_false_iff.mpr hd
    have hkey : s.nextTimeout v = t.nextTimeout := by rw [nextTimeout,hv]
    refine ⟨_,if_neg hd,g.step rfl ⟨live,?_,?_⟩ ?_ ?_ ?_ hrest (fun h => absurd h hout) hnodup,
      frame_write s v _ _ _ _,?_⟩
    · rw [nextTimeout_write]
      show Holds (Function.update s.nextTimeout v t.nextTimeout) s.timers live
      rwa [← hkey,Function.update_eq_self]
    · intro w
      rw [← Finset.insert_eq_of_mem (hvlive.mpr hd')]
      exact live_insert hlive (by simp [isLive,hd']) w
    · rw [hv]
      rfl
    · rw [hv]
      rfl
    · rintro - ⟨⟩
      exact ⟨hfits.timeout,hfits.active,nofun,fun h => absurd h hd⟩
    · rw [event_write,if_neg hd]

end Steps

/-- No callback touches `v`. -/
def Spares (cb : Hloop ι → ι → List (Call ι)) (v : ι) : Prop := ∀ s w, ∀ c ∈ cb s w, c.timer ≠ v

/-- The result of the loop over the pending events. -/
structure Turned (cb : Hloop ι → ι → List (Call ι)) (rest : List ι) (s : Hloop ι) (x : Hloop ι × List ι) : Prop where
  good : Good x.1 []
  called : x.2.Sublist rest
  others : ∀ v, Spares cb v → v ∉ rest → x.1.event v = s.event v
  listed : ∀ v t, Spares cb v → v ∈ rest → s.event v = some t → t.pending = true → t.active = true →
    v ∈ x.2 ∧ x.1.event v = t.settled

/-- An event that is not pending any more is passed over. -/
theorem Good.skip {s : Hloop ι} {rest : List ι} {cur : ι} {t : Htimer} (g : Good s (cur :: rest))
    (ht : s.event cur = some t) (hp : ¬t.pending = true) : Good s rest := by
  refine ⟨g.holds,g.ntimers,g.nactives,fun v u hu => ?_,fun v hv => g.listed v (List.mem_cons_of_mem cur hv),
    (List.nodup_cons.mp g.nodup).2⟩
  have hfits := g.fits v u hu
  refine ⟨hfits.timeout,hfits.active,fun h => ?_,hfits.destroy⟩
  rcases List.mem_cons.mp (hfits.pending h) with rfl | hv
  · obtain rfl := Option.some.inj (ht.symm.trans hu)
    exact absurd h hp
  · exact hv

theorem Good.pendingsLoop {s : Hloop ι} {rest : List ι} (g : Good s rest) (cb : Hloop ι → ι → List (Call ι)) :
    Sound (pendingsLoop cb rest s) (Turned cb rest s) := by
  induction rest generalizing s with
  | nil => exact ⟨g,.refl [],fun _ _ _ => rfl,nofun⟩
  | cons cur rest ih =>
    have hout := (List.nodup_cons.mp g.nodup).1
    obtain ⟨t,ht⟩ := Option.ne_none_iff_exists'.mp (g.listed cur List.mem_cons_self)
    rw [Hloop.pendingsLoop,ht]
    by_cases hp : t.pending = true
    · simp only [if_pos hp]
      refine (g.issues _).bind fun s₁ ⟨g₁,hframe₁⟩ => ?_
      obtain ⟨t₁,ht₁⟩ := Option.ne_none_iff_exists'.mp (g₁.listed cur List.mem_cons_self)
      obtain ⟨s₂,hsettle,g₂,hframe₂,hcur⟩ := g₁.settle ht₁
      rw [hsettle]
      refine (ih g₂).bind fun x hx => ?_
      -- A timer that no callback touches is the same until its turn.
      have hsame : ∀ v, Spares cb v → s₁.event v = s.event v := by
        refine fun v hspares => hframe₁.event v ?_
        rintro ⟨c,hc,rfl⟩
        split_ifs at hc
        · exact hspares s cur c hc rfl
        · cases hc
      refine ⟨hx.good,?_,fun v hspares hv => ?_,fun v u hspares hv hu hup hua => ?_⟩
      · split_ifs
        · exact hx.called.cons_cons cur
        · exact hx.called.cons cur
      · rw [List.mem_cons,not_or] at hv
        rw [hx.others v hspares hv.2,hframe₂.event v hv.1,hsame v hspares]
      · rcases List.mem_cons.mp hv with rfl | hv
        · obtain rfl := Option.some.inj (ht.symm.trans hu)
          obtain rfl := Option.some.inj (ht.symm.trans ((hsame v hspares).symm.trans ht₁))
          exact ⟨by simp [hua],(hx.others v hspares hout).trans hcur⟩
        · have hne : v ≠ cur := ne_of_mem_of_not_mem hv hout
          obtain ⟨hmem,hevent⟩ := hx.listed v u hspares hv
            (by rw [hframe₂.event v hne,hsame v hspares,hu]) hup hua
          exact ⟨by split_ifs <;> simp [hmem],hevent⟩
    · simp only [if_neg hp]
      refine (ih (g.skip ht hp)).imp fun x hx => ⟨hx.good,hx.called.cons cur,fun v hspares hv => ?_,?_⟩
      · exact hx.others v hspares fun h => hv (List.mem_cons_of_mem cur h)
      · intro v u hspares hv hu hup hua
        rcases List.mem_cons.mp hv with rfl | hv
        · obtain rfl := Option.some.inj (ht.symm.trans hu)
          exact absurd hup hp
        · exact hx.listed v u hspares hv hu hup hua

end Hloop
end FDemo.Libhv
