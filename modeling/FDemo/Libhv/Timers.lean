import FDemo.Libhv.Heap

/-! # The timers of an event loop

The timers of `hloop.c` that have a timeout: a timer is added, reset and deleted, and in
every round the loop takes the timers that are due from the heap, puts them on the list
of pending events and calls them back. The memory holds the timers that are
allocated; the access to another one has no result. Times are in microseconds.
-/
namespace FDemo.Libhv
variable {ι : Type} [DecidableEq ι]

/-- `htimeout_t` without the node of the heap. -/
structure Htimer where
  repeats : UInt32
  timeout : UInt32
  nextTimeout : ℕ
  destroy : Bool := false
  active : Bool := false
  pending : Bool := false
  deriving DecidableEq

def infinite : UInt32 := 0xFFFFFFFF

structure Hloop (ι : Type) where
  timers : Heap ι := {}
  event : ι → Option Htimer := fun _ => none
  ntimers : ℕ := 0
  nactives : ℕ := 0
  npendings : ℕ := 0
  pendings : List ι := []
  curHrtime : ℕ := 0

/-- `next_timeout` of a timer that starts now. From one second on the granularity is 100 ms. -/
def firstTimeout (curHrtime : ℕ) (timeout : UInt32) : ℕ :=
  let next := curHrtime + timeout.toNat * 1000
  if 1000 ≤ timeout ∧ timeout % 100 = 0 then next / 100000 * 100000 else next

/-- `while (next_timeout <= now) next_timeout += period`. -/
def advanceTimeout (now period : ℕ) : ℕ → ℕ → Option ℕ
  | fuel, next =>
    if next ≤ now then
      match fuel with
      | 0 => none
      | fuel + 1 => advanceTimeout now period fuel (next + period)
    else some next

namespace Htimer

/-- The fields that `htimer_reset` sets. -/
def restart (t : Htimer) (curHrtime : ℕ) (timeout : UInt32) : Htimer :=
  let t := if t.repeats = 0 then { t with repeats := 1 } else t
  let t := if 0 < timeout then { t with timeout := timeout } else t
  { t with nextTimeout := firstTimeout curHrtime t.timeout }

/-- `if (timer->repeat != INFINITE) --timer->repeat`. -/
def countDown (t : Htimer) : Htimer := if t.repeats = infinite then t else { t with repeats := t.repeats - 1 }

end Htimer

namespace Hloop

def put (s : Hloop ι) (ev : ι) (t : Htimer) : Hloop ι := { s with event := Function.update s.event ev (some t) }

def free (s : Hloop ι) (ev : ι) : Hloop ι := { s with event := Function.update s.event ev none }

omit [DecidableEq ι] in
def nextTimeout (s : Hloop ι) (node : ι) : ℕ :=
  match s.event node with
  | none => 0
  | some t => t.nextTimeout

def timersCompare (s : Hloop ι) (lhs rhs : ι) : Bool := decide (s.nextTimeout lhs < s.nextTimeout rhs)

def heapInsert (s : Hloop ι) (node : ι) : Option (Hloop ι) :=
  (s.timers.insert s.timersCompare node).map fun timers => { s with timers := timers }

def heapRemove (s : Hloop ι) (node : ι) : Option (Hloop ι) :=
  (s.timers.remove s.timersCompare node).map fun timers => { s with timers := timers }

def heapDequeue (s : Hloop ι) : Option (Hloop ι) :=
  (s.timers.dequeue s.timersCompare).map fun timers => { s with timers := timers }

/-- `EVENT_ACTIVE`. -/
def eventActive (s : Hloop ι) (ev : ι) : Option (Hloop ι) := do
  let t ← s.event ev
  if t.active then some s else some { s.put ev { t with active := true } with nactives := s.nactives + 1 }

/-- `EVENT_INACTIVE`. -/
def eventInactive (s : Hloop ι) (ev : ι) : Option (Hloop ι) := do
  let t ← s.event ev
  if t.active then some { s.put ev { t with active := false } with nactives := s.nactives - 1 } else some s

/-- `EVENT_PENDING`. -/
def eventPending (s : Hloop ι) (ev : ι) : Option (Hloop ι) := do
  let t ← s.event ev
  if t.pending then some s
  else some { s.put ev { t with pending := true } with npendings := s.npendings + 1, pendings := ev :: s.pendings }

/-- `EVENT_DEL`. -/
def eventDel (s : Hloop ι) (ev : ι) : Option (Hloop ι) := do
  let s ← s.eventInactive ev
  let t ← s.event ev
  if t.pending then some s else some (s.free ev)

/-- `EVENT_RESET`. -/
def eventReset (s : Hloop ι) (ev : ι) : Option (Hloop ι) := do
  let t ← s.event ev
  let s ← (s.put ev { t with destroy := false }).eventActive ev
  let t ← s.event ev
  some (s.put ev { t with pending := false })

def hloopUpdateTime (s : Hloop ι) (now : ℕ) : Hloop ι := { s with curHrtime := now }

/-- `htimer_add`, with the address and the time that it gets. -/
def htimerAdd (s : Hloop ι) (timer : ι) (now : ℕ) (timeout repeats : UInt32) : Option (Hloop ι) :=
  if timeout = 0 then some s
  else do
    let s := s.hloopUpdateTime now
    let s := { s with timers := s.timers.clear timer }
    let s := s.put timer { repeats := repeats, timeout := timeout, nextTimeout := firstTimeout s.curHrtime timeout }
    let s ← s.heapInsert timer
    let s ← s.eventActive timer
    some { s with ntimers := s.ntimers + 1 }

/-- `htimer_reset`. -/
def htimerReset (s : Hloop ι) (timer : ι) (timeout : UInt32) : Option (Hloop ι) := do
  let t ← s.event timer
  let s ← (if t.destroy then some { s with ntimers := s.ntimers + 1 } else s.heapRemove timer)
  let s := s.put timer (t.restart s.curHrtime timeout)
  let s ← s.heapInsert timer
  s.eventReset timer

/-- `__htimer_del`. -/
def htimerDelInner (s : Hloop ι) (timer : ι) : Option (Hloop ι) := do
  let t ← s.event timer
  if t.destroy then some s
  else
    let s ← s.heapRemove timer
    some ({ s with ntimers := s.ntimers - 1 }.put timer { t with destroy := true })

/-- `htimer_del`. -/
def htimerDel (s : Hloop ι) (timer : ι) : Option (Hloop ι) := do
  let t ← s.event timer
  if t.active then
    let s ← s.htimerDelInner timer
    s.eventDel timer
  else some s

/-- The timer is dequeued and inserted again with its next timeout. -/
def reschedule (s : Hloop ι) (now : ℕ) (timer : ι) (t : Htimer) : Option (Hloop ι) := do
  let s ← s.heapDequeue
  let next ← advanceTimeout now (t.timeout.toNat * 1000) (now + 1) t.nextTimeout
  (s.put timer { t with nextTimeout := next }).heapInsert timer

/-- The body of the loop over the timers that are due. -/
def expire (s : Hloop ι) (now : ℕ) (timer : ι) : Option (Hloop ι) := do
  let t ← s.event timer
  let t := t.countDown
  let s := s.put timer t
  let s ← (if t.repeats = 0 then s.htimerDelInner timer else s.reschedule now timer t)
  s.eventPending timer

/-- `__hloop_process_timers`. -/
def hloopProcessTimersInner (now : ℕ) : ℕ → Hloop ι → Option (Hloop ι × ℕ)
  | fuel, s =>
    match s.timers.root with
    | none => some (s,0)
    | some timer => do
      let t ← s.event timer
      if now < t.nextTimeout then some (s,0)
      else
        match fuel with
        | 0 => none
        | fuel + 1 =>
          let s ← s.expire now timer
          let (s,ntimers) ← hloopProcessTimersInner now fuel s
          some (s,ntimers + 1)

def hloopProcessTimers (s : Hloop ι) : Option (Hloop ι × ℕ) := hloopProcessTimersInner s.curHrtime s.timers.nelts s

/-- The end of a pending event: `cur->pending = 0`, and it is deleted if it is marked. -/
def settle (s : Hloop ι) (cur : ι) : Option (Hloop ι) := do
  let t ← s.event cur
  let s := s.put cur { t with pending := false }
  if t.destroy then s.eventDel cur else some s

end Hloop

/-- What is called on the timers, from a callback or between the rounds. -/
inductive Call (ι : Type)
  | add (timer : ι) (now : ℕ) (timeout repeats : UInt32)
  | reset (timer : ι) (timeout : UInt32)
  | del (timer : ι)

/-- Why a run ends early: a call that breaks the rules of `Call.allowed`, or an access to memory that is
not allocated, a failed assertion or a loop that goes on. -/
inductive Fault
  | misuse
  | crash
  deriving DecidableEq

namespace Call

def timer : Call ι → ι
  | add timer _ _ _ => timer
  | reset timer _ => timer
  | del timer => timer

def run (s : Hloop ι) : Call ι → Option (Hloop ι)
  | add timer now timeout repeats => s.htimerAdd timer now timeout repeats
  | reset timer timeout => s.htimerReset timer timeout
  | del timer => s.htimerDel timer

/-- A new timer has a new address, and the other calls are on a timer that is allocated: on a timer that was
freed the source would touch its memory. No timer of the rest of the list of pending events is deleted after
it was reset. -/
def allowed (rest : List ι) (s : Hloop ι) : Call ι → Bool
  | add timer _ _ _ => (s.event timer).isNone
  | reset timer _ => (s.event timer).isSome
  | del timer => (s.event timer).any fun t => timer ∉ rest || !t.active || t.pending

def issue (rest : List ι) (s : Hloop ι) (c : Call ι) : Except Fault (Hloop ι) :=
  if c.allowed rest s then (c.run s).elim (.error .crash) .ok else .error .misuse

end Call

namespace Hloop

/-- The loop over the pending events, with the callbacks and the events that are called. -/
def pendingsLoop (cb : Hloop ι → ι → List (Call ι)) : List ι → Hloop ι → Except Fault (Hloop ι × List ι)
  | [], s => .ok (s,[])
  | cur :: rest, s =>
    match s.event cur with
    | none => .error .crash
    | some t =>
      if t.pending then do
        let s ← (if t.active then cb s cur else []).foldlM (Call.issue (cur :: rest)) s
        let s ← (s.settle cur).elim (.error .crash) .ok
        let (s,called) ← pendingsLoop cb rest s
        .ok (s,if t.active then cur :: called else called)
      else pendingsLoop cb rest s

def hloopProcessPendings (cb : Hloop ι → ι → List (Call ι)) (s : Hloop ι) : Except Fault (Hloop ι × List ι) :=
  if s.npendings = 0 then .ok (s,[])
  else do
    let (s,called) ← pendingsLoop cb s.pendings s
    .ok ({ s with pendings := [], npendings := 0 },called)

/-- The part of `hloop_process_events` that is about timers. -/
def hloopProcessEvents (cb : Hloop ι → ι → List (Call ι)) (now : ℕ) (s : Hloop ι) :
    Except Fault (Hloop ι × List ι) := do
  let s := s.hloopUpdateTime now
  let s ← (if s.ntimers = 0 then .ok s else s.hloopProcessTimers.elim (.error .crash) fun x => .ok x.1)
  s.hloopProcessPendings cb

/-- `hloop_cleanup` frees the timers of the heap. -/
def cleanupTimers : ℕ → Hloop ι → Option (Hloop ι)
  | fuel, s =>
    match s.timers.root with
    | none => some { s with timers := {} }
    | some timer =>
      match fuel with
      | 0 => none
      | fuel + 1 => s.heapDequeue.bind fun s => cleanupTimers fuel (s.free timer)

end Hloop
end FDemo.Libhv
