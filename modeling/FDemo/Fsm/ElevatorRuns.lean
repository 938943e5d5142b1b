import FDemo.Fsm.Elevator
import FDemo.Fsm.Lift

/-! # Runs of the elevator

Over every run of the program its machines show the state of a lift, and what it
prints are the signals of that lift. No sum of floors overflows, since a lift on
a trip stays between two floors that are `int`s.
-/
namespace FDemo.Fsm
open TinyFsm Mealy

def Line.signal : Line → Option Lift.Signal
  | motorStopped => some .stop
  | motorUp => some .up
  | motorDown => some .down
  | callingMaintenance => some .maintenance
  | callingFirefighters => some .firefighters
  | reachedFloor floor => some (.reached floor.toInt)
  | floorSensorDefect _ _ | callIgnored | floorSensorIgnored | prompt | floorPrompt | thanks | invalidInput => none

def Command.input : Command → Option Lift.Input
  | call floor => some (.call floor.toInt)
  | floorSensor floor => some (.sensor floor.toInt)
  | alarm => some .alarm
  | quit | invalid => none

/-- What the program gets before it quits. -/
def inputs (commands : List Command) : List Lift.Input :=
  (commands.takeWhile (· ≠ .quit)).filterMap Command.input

namespace Office

def signals (s : Office) : List Lift.Signal := s.out.filterMap Line.signal

/-- The machines are in the states that stand for the lift, with the floors and the direction it has. -/
def Shows (s : Office) : Lift → Prop
  | .parked f => s.elevator = .idle ∧ s.motor = .stopped ∧ s.direction = 0 ∧ s.currentFloor.toInt = f ∧
      s.destFloor.toInt = f
  | .travelling t => s.elevator = .moving ∧ s.currentFloor.toInt = t.floor ∧ s.destFloor.toInt = t.dest ∧
      s.motor = (if t.floor < t.dest then .up else .down) ∧ s.direction = if t.floor < t.dest then 1 else -1
  | .broken f => s.elevator = .panic ∧ s.motor = .stopped ∧ s.direction = 0 ∧ s.currentFloor.toInt = f

end Office

/-- The motor after an order: its entry prints the line and sets the direction. -/
def Office.drive (s : Office) (motor : MotorState) (direction : Int32) (line : Line) : Office :=
  { s with motor := motor, direction := direction, out := s.out ++ [line] }

theorem sendEvent_motorStop (depth : ℕ) (s : Office) :
    sendEvent fsmList (depth + 1) .motorStop s = some (s.drive .stopped 0 .motorStopped) := rfl

theorem sendEvent_motorUp (depth : ℕ) (s : Office) :
    sendEvent fsmList (depth + 1) .motorUp s = some (s.drive .up 1 .motorUp) := rfl

theorem sendEvent_motorDown (depth : ℕ) (s : Office) :
    sendEvent fsmList (depth + 1) .motorDown s = some (s.drive .down (-1) .motorDown) := rfl

theorem sendEvent_call (depth : ℕ) (floor : Int32) (s : Office) :
    sendEvent fsmList (depth + 1) (.call floor) s = Elevator.react (sendEvent fsmList depth) (.call floor) s :=
  Option.bind_fun_some _

theorem sendEvent_floorSensor (depth : ℕ) (floor : Int32) (s : Office) :
    sendEvent fsmList (depth + 1) (.floorSensor floor) s =
      Elevator.react (sendEvent fsmList depth) (.floorSensor floor) s := Option.bind_fun_some _

theorem sendEvent_alarm (depth : ℕ) (s : Office) :
    sendEvent fsmList (depth + 1) .alarm s = Elevator.react (sendEvent fsmList depth) .alarm s :=
  Option.bind_fun_some _

/-- From a state that shows the lift, the reaction shows the lift after its step, and adds its signals. -/
def Follows (r : Option Office) (s : Office) (l : Lift) (i : Lift.Input) : Prop :=
  ∃ s', r = some s' ∧ s'.Shows (l.step i).1 ∧ s'.signals = s.signals ++ (l.step i).2

theorem signals_append {s s' : Office} (lines : List Line) (h : s'.out = s.out ++ lines) :
    s'.signals = s.signals ++ lines.filterMap Line.signal := by
  rw [Office.signals,h,List.filterMap_append]
  rfl

theorem signals_print (s : Office) (line : Line) :
    (s.print line).signals = s.signals ++ [line].filterMap Line.signal := signals_append [line] rfl

theorem Office.Shows.floor_eq {s : Office} {l : Lift} (h : s.Shows l) : s.currentFloor.toInt = l.floor := by
  cases l with
  | parked f => exact h.2.2.2.1
  | travelling t => exact h.2.1
  | broken f => exact h.2.2.2

/-- Entering `Panic` or `Idle` stops the motor. -/
theorem transit_stop (depth : ℕ) {state : ElevatorState} (hstate : state ≠ .moving) {action : Office → Option Office}
    {s s' : Office} (haction : action s = some s') :
    (elevator (sendEvent fsmList (depth + 1))).transit state action s =
      some ({ s' with elevator := state }.drive .stopped 0 .motorStopped) := by
  simp only [Machine.transit,elevator,Option.bind_eq_bind,Option.bind_some,haction,Machine.enter]
  cases state with
  | moving => exact absurd rfl hstate
  | panic => exact sendEvent_motorStop depth _
  | idle => exact sendEvent_motorStop depth _

theorem transit_moving (depth : ℕ) {s : Office} (hne : s.destFloor ≠ s.currentFloor) :
    (elevator (sendEvent fsmList (depth + 1))).transit .moving (Idle.startMotor (sendEvent fsmList (depth + 1))) s =
      some (if s.currentFloor < s.destFloor then { s.drive .up 1 .motorUp with elevator := .moving }
        else { s.drive .down (-1) .motorDown with elevator := .moving }) := by
  simp only [Machine.transit,elevator,Option.bind_eq_bind,Option.bind_some,Idle.startMotor,gt_iff_lt,
    sendEvent_motorUp,sendEvent_motorDown,Machine.enter]
  by_cases hup : s.currentFloor < s.destFloor
  · simp only [if_pos hup,Option.bind_some]
  · have hdown : s.destFloor < s.currentFloor := by
      rw [Int32.lt_iff_toInt_lt] at hup ⊢
      have := mt Int32.toInt_inj.mp hne
      omega
    simp only [if_neg hup,if_pos hdown,Option.bind_some]

theorem react_alarm {s : Office} {l : Lift} (h : s.Shows l) (depth : ℕ) :
    Follows (sendEvent fsmList (depth + 2) .alarm s) s l .alarm := by
  have hl : l.step .alarm = (.broken l.floor,[.firefighters,.stop]) := by cases l <;> rfl
  rw [sendEvent_alarm,Follows,hl,Elevator.react.eq_def]
  refine ⟨_,transit_stop depth (by decide) rfl,⟨rfl,rfl,rfl,h.floor_eq⟩,?_⟩
  exact signals_append [.callingFirefighters,.motorStopped] (by simp [Office.print,Office.drive])

theorem react_call {s : Office} {l : Lift} (h : s.Shows l) (floor : Int32) (depth : ℕ) :
    Follows (sendEvent fsmList (depth + 2) (.call floor) s) s l (.call floor.toInt) := by
  rw [sendEvent_call]
  cases l with
  | travelling t =>
    obtain ⟨helev,h⟩ := h
    refine ⟨s.print .callIgnored,?_,⟨helev,h⟩,?_⟩
    · simp only [Elevator.react,helev]
    · exact signals_print s _
  | broken f =>
    obtain ⟨helev,h⟩ := h
    refine ⟨s.print .callIgnored,?_,⟨helev,h⟩,?_⟩
    · simp only [Elevator.react,helev]
    · exact signals_print s _
  | parked f =>
    obtain ⟨helev,hmotor,hdir,rfl,hdest⟩ := h
    simp only [Elevator.react,helev,Idle.reactCall,Follows,Lift.step,Lift.depart]
    by_cases heq : floor = s.currentFloor
    · rw [if_pos heq,dif_pos (by rw [heq])]
      refine ⟨_,rfl,⟨rfl,hmotor,hdir,rfl,?_⟩,(List.append_nil _).symm⟩
      rw [heq]
    · have hne : s.currentFloor.toInt ≠ floor.toInt := fun h => heq (Int32.toInt_inj.mp h).symm
      rw [if_neg heq,dif_neg hne,transit_moving depth heq]
      refine ⟨_,rfl,?_,?_⟩
      · simp only [Int32.lt_iff_toInt_lt,Office.drive,Office.Shows]
        split <;> exact ⟨rfl,rfl,rfl,rfl,rfl⟩
      · simp only [Int32.lt_iff_toInt_lt,Lift.towards]
        split
        · exact signals_append [.motorUp] rfl
        · exact signals_append [.motorDown] rfl

theorem addInt_eq {a b : Int32} {c : ℤ} (hc : a.toInt + b.toInt = c) (hle : -2 ^ 31 ≤ c) (hlt : c < 2 ^ 31) :
    ∃ d, addInt a b = some d ∧ d.toInt = c := by
  subst hc
  exact ⟨_,if_pos ⟨hle,hlt⟩,Int32.toInt_ofInt_of_le hle hlt⟩

/-- The next floor of a trip lies between two `int`s. -/
theorem addInt_next {s : Office} {t : Trip} (h : s.Shows (.travelling t)) :
    ∃ d, addInt s.currentFloor s.direction = some d ∧ d.toInt = t.next := by
  obtain ⟨-,hcur,hdest,-,hdir⟩ := h
  have hc := And.intro s.currentFloor.le_toInt s.currentFloor.toInt_lt
  have hd := And.intro s.destFloor.le_toInt s.destFloor.toInt_lt
  have hne := t.ne
  have hnext := t.next_eq
  have hdir' : s.direction.toInt = if t.floor < t.dest then 1 else -1 := by
    rw [hdir]
    split <;> rfl
  refine addInt_eq ?_ ?_ ?_ <;> split_ifs at hnext hdir' <;> omega

theorem react_floorSensor {s : Office} {l : Lift} (h : s.Shows l) (floor : Int32) (depth : ℕ) :
    Follows (sendEvent fsmList (depth + 2) (.floorSensor floor) s) s l (.sensor floor.toInt) := by
  rw [sendEvent_floorSensor]
  cases l with
  | parked f =>
    obtain ⟨helev,h⟩ := h
    refine ⟨s.print .floorSensorIgnored,?_,⟨helev,h⟩,?_⟩
    · simp only [Elevator.react,helev]
    · exact signals_print s _
  | broken f =>
    obtain ⟨helev,h⟩ := h
    refine ⟨s.print .floorSensorIgnored,?_,⟨helev,h⟩,?_⟩
    · simp only [Elevator.react,helev]
    · exact signals_print s _
  | travelling t =>
    obtain ⟨expected,hadd,hexp⟩ := addInt_next h
    obtain ⟨helev,hcur,hdest,hmotor,hdir⟩ := h
    simp only [Elevator.react,helev,Moving.reactFloorSensor,hadd,Option.bind_eq_bind,Option.bind_some,Follows,
      Lift.step,← hexp,Int32.toInt_inj]
    by_cases hfloor : floor = expected
    · subst hfloor
      rw [if_neg (not_not_intro rfl),if_pos rfl]
      by_cases harrive : floor = s.destFloor
      · rw [if_pos (show floor = (s.print (.reachedFloor floor)).destFloor from harrive),Lift.arrive,
          dif_pos (by rw [harrive,hdest])]
        refine ⟨_,transit_stop depth (by decide) rfl,⟨rfl,rfl,rfl,rfl,?_⟩,?_⟩
        · exact congrArg Int32.toInt harrive.symm
        · exact signals_append [.reachedFloor floor,.motorStopped] (by simp [Office.print,Office.drive])
      · have hne : floor.toInt ≠ t.dest := by
          rw [← hdest]
          exact fun h => harrive (Int32.toInt_inj.mp h)
        rw [if_neg (show ¬floor = (s.print (.reachedFloor floor)).destFloor from harrive),Lift.arrive,dif_neg hne]
        have hlt : floor.toInt < t.dest ↔ t.floor < t.dest := by
          rw [hexp] at hne ⊢
          exact t.next_lt_dest hne
        refine ⟨_,rfl,⟨helev,rfl,hdest,?_,?_⟩,signals_print s _⟩
        · simpa only [hlt,Office.print] using hmotor
        · simpa only [hlt,Office.print] using hdir
    · rw [if_pos (Ne.symm hfloor),if_neg hfloor]
      refine ⟨_,transit_stop depth (by decide) rfl,⟨rfl,rfl,rfl,hcur⟩,?_⟩
      exact signals_append [.floorSensorDefect expected floor,.callingMaintenance,.motorStopped]
        (by simp [Office.print,Office.drive])

theorem Office.Shows.print {s : Office} {l : Lift} (h : s.Shows l) (line : Line) : (s.print line).Shows l := by
  cases l <;> exact h

theorem signals_print_none (s : Office) {line : Line} (h : line.signal = none) :
    (s.print line).signals = s.signals := by
  rw [signals_print,List.filterMap_cons_none h,List.filterMap_nil,List.append_nil]

theorem mainLoop_follows (depth : ℕ) (commands : List Command) {s : Office} {l : Lift} (h : s.Shows l) :
    ∃ s', mainLoop (depth + 2) s commands = some s' ∧ s'.Shows (final Lift.step l (inputs commands)) ∧
      s'.signals = s.signals ++ l.signals (inputs commands) := by
  induction commands generalizing s l with
  | nil =>
    refine ⟨_,rfl,h.print _,?_⟩
    rw [signals_print_none s rfl]
    exact (List.append_nil _).symm
  | cons command commands ih =>
    have hprompt := h.print .prompt
    cases command with
    | quit =>
      refine ⟨_,rfl,hprompt.print _,?_⟩
      rw [signals_print_none _ rfl,signals_print_none s rfl]
      exact (List.append_nil _).symm
    | invalid =>
      obtain ⟨s',hs',hshows,hsignals⟩ := ih (hprompt.print .invalidInput)
      refine ⟨s',hs',hshows,?_⟩
      rw [hsignals,signals_print_none _ rfl,signals_print_none s rfl]
      rfl
    | alarm =>
      obtain ⟨s₁,hs₁,hshows₁,hsignals₁⟩ := react_alarm hprompt depth
      obtain ⟨s',hs',hshows,hsignals⟩ := ih hshows₁
      refine ⟨s',?_,hshows,?_⟩
      · simp only [mainLoop,hs₁,Option.bind_eq_bind,Option.bind_some,hs']
      · rw [hsignals,hsignals₁,signals_print_none s rfl,List.append_assoc]
        rfl
    | call floor =>
      obtain ⟨s₁,hs₁,hshows₁,hsignals₁⟩ := react_call (hprompt.print .floorPrompt) floor depth
      obtain ⟨s',hs',hshows,hsignals⟩ := ih hshows₁
      refine ⟨s',?_,hshows,?_⟩
      · simp only [mainLoop,hs₁,Option.bind_eq_bind,Option.bind_some,hs']
      · rw [hsignals,hsignals₁,signals_print_none _ rfl,signals_print_none s rfl,List.append_assoc]
        rfl
    | floorSensor floor =>
      obtain ⟨s₁,hs₁,hshows₁,hsignals₁⟩ := react_floorSensor (hprompt.print .floorPrompt) floor depth
      obtain ⟨s',hs',hshows,hsignals⟩ := ih hshows₁
      refine ⟨s',?_,hshows,?_⟩
      · simp only [mainLoop,hs₁,Option.bind_eq_bind,Option.bind_some,hs']
      · rw [hsignals,hsignals₁,signals_print_none _ rfl,signals_print_none s rfl,List.append_assoc]
        rfl

/-- The events from outside make the elevator send motor events, and those make nobody send any. -/
def Event.rank : Event → ℕ
  | call _ | floorSensor _ | alarm => 1
  | motorUp | motorDown | motorStop => 0

theorem dispatch_congr {send send' : Event → Office → Option Office} {e : Event}
    (h : ∀ e' : Event, e'.rank < e.rank → send e' = send' e') :
    FsmList.dispatch (fsmList send) e = FsmList.dispatch (fsmList send') e := by
  cases he : e.rank with
  | zero =>
    cases e with
    | motorUp | motorDown | motorStop => rfl
    | call floor | floorSensor floor | alarm => cases he
  | succ n =>
    rw [he] at h
    have hstop := h .motorStop (Nat.succ_pos n)
    have helev : elevator send = elevator send' := by
      simp only [elevator,hstop]
    have hstart : Idle.startMotor send = Idle.startMotor send' := by
      funext s
      simp only [Idle.startMotor,h .motorUp (Nat.succ_pos n),h .motorDown (Nat.succ_pos n)]
    have hreact : Elevator.react send = Elevator.react send' := by
      funext e s
      simp only [Elevator.react,Idle.reactCall,Moving.reactFloorSensor,helev,hstart]
    simp only [fsmList,helev,hreact]

theorem sendEvent_depth {depth : ℕ} (h : 2 ≤ depth) : sendEvent fsmList depth = sendEvent fsmList 2 := by
  funext e
  have he : e.rank < 2 := by cases e <;> simp [Event.rank]
  exact sendEvent_eq_of_rank Event.rank (fun _ _ _ => dispatch_congr) (Nat.lt_of_lt_of_le he h) he

theorem mainLoop_depth {depth : ℕ} (h : 2 ≤ depth) (s : Office) (commands : List Command) :
    mainLoop depth s commands = mainLoop 2 s commands := by
  induction commands generalizing s with
  | nil => rfl
  | cons command commands ih =>
    cases command <;> simp only [mainLoop,sendEvent_depth h,ih]

/-- The program after its start. -/
def started : Office := { out := [.motorStopped,.motorStopped] }

theorem started_shows : started.Shows (.parked 0) := ⟨rfl,rfl,rfl,rfl,rfl⟩

theorem runMain_eq {depth : ℕ} (h : 2 ≤ depth) (commands : List Command) :
    runMain depth commands = mainLoop 2 started commands := by
  rw [runMain,sendEvent_depth h]
  exact mainLoop_depth h started commands

/-- After any lines each of them is handled, the state shows the lift after the same inputs, and the signals
are the same. -/
theorem runMain_refines (commands : List Command) :
    ∃ s, (∀ depth, 2 ≤ depth → runMain depth commands = some s) ∧
      s.Shows (final Lift.step (.parked 0) (inputs commands)) ∧
      s.signals = [.stop,.stop] ++ Lift.signals (.parked 0) (inputs commands) := by
  obtain ⟨s,hs,hshows,hsignals⟩ := mainLoop_follows 0 commands started_shows
  refine ⟨s,fun depth h => ?_,hshows,hsignals⟩
  rw [runMain_eq h,hs]

example : (runMain 2 [.call 1,.floorSensor 1,.call 1,.quit]).map Office.out =
    some [.motorStopped,.motorStopped,.prompt,.floorPrompt,.motorUp,.prompt,.floorPrompt,.reachedFloor 1,.motorStopped,
      .prompt,.floorPrompt,.prompt,.thanks] := by decide

theorem inputs_append {before : List Command} (h : .quit ∉ before) (after : List Command) :
    inputs (before ++ after) = inputs before ++ inputs after := by
  have hall : ∀ command ∈ before, decide (command ≠ .quit) = true := by
    intro command hmem
    rw [decide_eq_true_iff]
    rintro rfl
    exact h hmem
  rw [inputs,inputs,List.takeWhile_append_of_pos hall,List.filterMap_append,List.takeWhile_eq_self_iff.mpr hall]
  rfl

theorem alarm_mem_inputs {commands : List Command} (h : .alarm ∉ commands) : .alarm ∉ inputs commands := by
  intro hmem
  obtain ⟨command,hmem,hinput⟩ := List.mem_filterMap.mp hmem
  cases command <;> simp only [Command.input,reduceCtorEq,Option.some.injEq] at hinput
  exact h ((List.takeWhile_sublist _).mem hmem)

/-- What `main` does with one line after its prompt, unless it quits. -/
def answer (depth : ℕ) (s : Office) : Command → Option Office
  | .call floor => sendEvent fsmList depth (.call floor) (s.print .floorPrompt)
  | .floorSensor floor => sendEvent fsmList depth (.floorSensor floor) (s.print .floorPrompt)
  | .alarm => sendEvent fsmList depth .alarm s
  | .quit => some (s.print .thanks)
  | .invalid => some (s.print .invalidInput)

theorem mainLoop_cons (depth : ℕ) (s : Office) {command : Command} (h : command ≠ .quit) (commands : List Command) :
    mainLoop depth s (command :: commands) =
      (answer depth (s.print .prompt) command).bind fun s => mainLoop depth s commands := by
  cases command with
  | quit => exact absurd rfl h
  | call floor | floorSensor floor | alarm | invalid => rfl

/-- Without the last prompt, the state after some lines is the one that further lines start from. -/
theorem mainLoop_append {depth : ℕ} {before : List Command} (hquit : .quit ∉ before) {s s' : Office}
    (h : mainLoop depth s before = some s') :
    ∃ t : Office, s' = t.print .prompt ∧ ∀ after, mainLoop depth s (before ++ after) = mainLoop depth t after := by
  induction before generalizing s with
  | nil => exact ⟨s,(Option.some.inj h).symm,fun _ => rfl⟩
  | cons command before ih =>
    have hne : command ≠ .quit := fun h => hquit (h ▸ List.mem_cons_self)
    rw [mainLoop_cons depth s hne] at h
    obtain ⟨s₁,hanswer,h⟩ := Option.bind_eq_some_iff.mp h
    obtain ⟨t,ht,happend⟩ := ih (fun h => hquit (List.mem_cons_of_mem command h)) h
    refine ⟨t,ht,fun after => ?_⟩
    rw [List.cons_append,mainLoop_cons depth s hne,hanswer,Option.bind_some,happend]

/-- A run goes on as the lift does. -/
theorem runMain_append {depth : ℕ} (hdepth : 2 ≤ depth) {before : List Command} (hquit : .quit ∉ before)
    {s : Office} (hs : runMain depth before = some s) {l : Lift} (hl : s.Shows l) (after : List Command) :
    ∃ s', runMain depth (before ++ after) = some s' ∧ s'.Shows (final Lift.step l (inputs after)) ∧
      s'.signals = s.signals ++ l.signals (inputs after) := by
  rw [runMain_eq hdepth] at hs ⊢
  obtain ⟨t,rfl,happend⟩ := mainLoop_append hquit hs
  have ht : t.Shows l := by cases l <;> exact hl
  obtain ⟨s',hs',hshows,hsignals⟩ := mainLoop_follows 0 after ht
  refine ⟨s',?_,hshows,?_⟩
  · rw [happend,hs']
  · rw [hsignals,signals_print_none t rfl]

/-- Which lift an idle elevator shows. -/
theorem Office.Shows.parked {s : Office} {l : Lift} (h : s.Shows l) (hidle : s.elevator = .idle) :
    s.Shows (.parked s.currentFloor.toInt) := by
  cases l with
  | parked f =>
    obtain rfl := h.floor_eq
    exact h
  | travelling t => exact absurd (hidle.symm.trans h.1) (by decide)
  | broken f => exact absurd (hidle.symm.trans h.1) (by decide)

theorem Lift.step_call {f g : ℤ} (h : f ≠ g) :
    Lift.step (.parked f) (.call g) = (.travelling ⟨f,g,h⟩,[Lift.towards f g]) := dif_neg h

theorem runMain_shows {depth : ℕ} (hdepth : 2 ≤ depth) {commands : List Command} {s : Office}
    (hs : runMain depth commands = some s) : s.Shows (final Lift.step (.parked 0) (inputs commands)) ∧
      s.signals = [.stop,.stop] ++ Lift.signals (.parked 0) (inputs commands) := by
  rw [runMain_eq hdepth] at hs
  obtain ⟨s',hs',hshows,hsignals⟩ := mainLoop_follows 0 commands started_shows
  obtain rfl := Option.some.inj (hs.symm.trans hs')
  exact ⟨hshows,hsignals⟩

/-- After a call to an idle elevator the readings of the floors between take it there in order, whatever calls
come meanwhile; the motor runs in one direction until the last reading and is then stopped. -/
theorem runMain_trip {depth : ℕ} {before more : List Command} {s : Office} {floor : Int32} {left : List ℤ}
    (hdepth : 2 ≤ depth) (hs : runMain depth before = some s) (hidle : s.elevator = .idle)
    (hquit : .quit ∉ before ++ more) (halarm : .alarm ∉ more)
    (hpath : path s.currentFloor.toInt floor.toInt = Lift.readings (inputs more) ++ left) (hleft : left ≠ []) :
    ∃ s', runMain depth (before ++ .call floor :: more) = some s' ∧ s'.elevator = .moving ∧ s'.destFloor = floor ∧
      s'.motor = (if s.currentFloor < floor then .up else .down) ∧
      s'.currentFloor.toInt = (Lift.readings (inputs more)).getLastD s.currentFloor.toInt ∧
      s'.signals = s.signals ++ Lift.towards s.currentFloor.toInt floor.toInt ::
        (Lift.readings (inputs more)).map Lift.Signal.reached ∧
      (left = [floor.toInt] → ∃ s'', runMain depth (before ++ .call floor :: (more ++ [.floorSensor floor])) = some s'' ∧
        s''.elevator = .idle ∧ s''.motor = .stopped ∧ s''.currentFloor = floor ∧
        s''.signals = s'.signals ++ [.reached floor.toInt,.stop]) := by
  rw [List.mem_append,not_or] at hquit
  have hparked := (runMain_shows hdepth hs).1.parked hidle
  have hne : s.currentFloor.toInt ≠ floor.toInt := by
    intro h
    rw [path_eq_nil.mpr h] at hpath
    exact hleft (List.append_eq_nil_iff.mp hpath.symm).2
  have hstep := Lift.step_call hne
  obtain ⟨t,hfinal,hdest,hpath',hlt,hfloor,hsignals⟩ :=
    Lift.final_travelling ⟨_,_,hne⟩ (alarm_mem_inputs halarm) hpath hleft
  obtain ⟨s',hs',hshows,hout⟩ := runMain_append hdepth hquit.1 hs hparked (.call floor :: more)
  have hinputs : inputs (.call floor :: more) = .call floor.toInt :: inputs more := rfl
  rw [hinputs,final_cons,hstep,hfinal] at hshows
  rw [hinputs,Lift.signals_cons,hstep,hsignals] at hout
  refine ⟨s',hs',hshows.1,?_,?_,?_,hout,fun harrives => ?_⟩
  · rw [← Int32.toInt_inj,hshows.2.2.1,hdest]
  · rw [hshows.2.2.2.1,hdest]
    simp only [hlt,Int32.lt_iff_toInt_lt]
  · rw [hshows.2.1,hfloor]
  · rw [harrives] at hpath'
    rw [← hdest] at hpath'
    obtain ⟨-,harrive⟩ := Lift.step_arrives hpath'
    have hquit' : .quit ∉ before ++ .call floor :: more := by
      simpa [hquit.1] using hquit.2
    obtain ⟨s'',hs'',hshows',hout'⟩ := runMain_append hdepth hquit' hs' hshows [.floorSensor floor]
    have hinputs' : inputs [.floorSensor floor] = [.sensor floor.toInt] := rfl
    rw [hinputs',final_cons,harrive,final_nil] at hshows'
    rw [hinputs',Lift.signals_cons,harrive,Lift.signals_nil,List.append_nil] at hout'
    refine ⟨s'',?_,hshows'.1,hshows'.2.1,Int32.toInt_inj.mp hshows'.2.2.2.1,hout'⟩
    rw [← List.cons_append,← List.append_assoc]
    exact hs''

theorem runMain_trip_two : ∃ s', runMain 2 [.call 2,.floorSensor 1,.call 5] = some s' ∧ s'.motor = .up := by
  obtain ⟨s',hs',-,-,hmotor,-⟩ := runMain_trip (show 2 ≤ 2 from le_rfl)
    (show runMain 2 [] = some (started.print .prompt) from rfl) rfl
    (show Command.quit ∉ [] ++ [.floorSensor 1,.call 5] by decide)
    (show Command.alarm ∉ [.floorSensor 1,.call 5] by decide)
    (show path 0 (2 : Int32).toInt = Lift.readings (inputs [.floorSensor 1,.call 5]) ++ [2] by decide) (by decide)
  exact ⟨s',hs',hmotor⟩

/-- The signal that the motor state stands for. -/
def MotorState.order : MotorState → Lift.Signal
  | stopped => .stop
  | up => .up
  | down => .down

theorem Office.Shows.order_eq {s : Office} {l : Lift} (h : s.Shows l) : s.motor.order = l.order := by
  cases l with
  | parked f =>
    rw [h.2.1]
    rfl
  | broken f =>
    rw [h.2.1]
    rfl
  | travelling t =>
    rw [h.2.2.2.1,Lift.order,Lift.towards]
    split <;> rfl

theorem Office.Shows.panic_iff {s : Office} {l : Lift} (h : s.Shows l) : l.IsBroken ↔ s.elevator = .panic := by
  cases l with
  | parked f => simp [Lift.IsBroken,h.1]
  | travelling t => simp [Lift.IsBroken,h.1]
  | broken f => simp [Lift.IsBroken,h.1]

/-- The inputs of the lift come from lines of the program. -/
theorem exists_line {commands : List Command} {pre post : List Lift.Input} {f : ℤ}
    (h : inputs commands = pre ++ .sensor f :: post) :
    ∃ before floor after, commands = before ++ .floorSensor floor :: after ∧ .quit ∉ before ∧ inputs before = pre ∧
      floor.toInt = f := by
  obtain ⟨xs,ys,hxy,hpre,hys⟩ := List.filterMap_eq_append_iff.mp h
  obtain ⟨zs,command,rest,rfl,hnone,hsome,-⟩ := List.filterMap_eq_cons_iff.mp hys
  have hall : ∀ c ∈ xs ++ zs, c ≠ .quit := by
    intro c hc
    have hmem : c ∈ commands.takeWhile (· ≠ .quit) := by
      rw [hxy,← List.append_assoc]
      exact List.mem_append_left _ hc
    simpa using List.mem_takeWhile_imp hmem
  have hcommands := List.takeWhile_append_dropWhile (p := (· ≠ .quit)) (l := commands)
  cases command with
  | floorSensor floor =>
    refine ⟨xs ++ zs,floor,rest ++ commands.dropWhile (· ≠ .quit),?_,fun h => hall _ h rfl,?_,?_⟩
    · refine hcommands.symm.trans ?_
      rw [hxy]
      simp only [List.append_assoc,List.cons_append]
    · rw [inputs,List.takeWhile_eq_self_iff.mpr fun c hc => by simpa using hall c hc,List.filterMap_append,hpre,
        List.filterMap_eq_nil_iff.mpr hnone,List.append_nil]
    · simpa [Command.input] using hsome
  | call floor => simp [Command.input] at hsome
  | alarm => simp [Command.input] at hsome
  | quit => simp [Command.input] at hsome
  | invalid => simp [Command.input] at hsome

theorem count_alarm (commands : List Command) :
    (commands.filterMap Command.input).count .alarm = commands.count .alarm := by
  induction commands with
  | nil => rfl
  | cons command commands ih => cases command <;> simp [List.filterMap_cons,Command.input,ih]

/-- A moving elevator shows a lift whose next floor is the one that the code expects. -/
theorem Office.Shows.moving {s : Office} {l : Lift} (h : s.Shows l) (hmoving : s.elevator = .moving) :
    ∃ t, l = .travelling t ∧ t.next = s.currentFloor.toInt + s.direction.toInt := by
  cases l with
  | parked f => exact absurd (hmoving.symm.trans h.1) (by decide)
  | broken f => exact absurd (hmoving.symm.trans h.1) (by decide)
  | travelling t =>
    refine ⟨t,rfl,?_⟩
    rw [h.2.1,h.2.2.2.2,t.next_eq]
    split <;> rfl

theorem misread_iff {depth : ℕ} (hdepth : 2 ≤ depth) (commands : List Command) :
    Lift.Misread (.parked 0) (inputs commands) ↔ ∃ before floor after t,
      commands = before ++ .floorSensor floor :: after ∧ .quit ∉ before ∧ runMain depth before = some t ∧
        t.elevator = .moving ∧ floor.toInt ≠ t.currentFloor.toInt + t.direction.toInt := by
  constructor
  · rintro ⟨pre,f,post,trip,hinputs,hfinal,hne⟩
    obtain ⟨before,floor,after,hcommands,hquit,hbefore,rfl⟩ := exists_line hinputs
    obtain ⟨t,ht,hshows,-⟩ := mainLoop_follows 0 before started_shows
    rw [hbefore,hfinal] at hshows
    obtain ⟨trip',htrip,hnext⟩ := hshows.moving hshows.1
    cases htrip
    exact ⟨before,floor,after,t,hcommands,hquit,by rw [runMain_eq hdepth,ht],hshows.1,hnext ▸ hne⟩
  · rintro ⟨before,floor,after,t,rfl,hquit,ht,hmoving,hne⟩
    obtain ⟨trip,hfinal,hnext⟩ := (runMain_shows hdepth ht).1.moving hmoving
    exact ⟨inputs before,floor.toInt,inputs after,trip,inputs_append hquit _,hfinal,hnext ▸ hne⟩

/-- In every run the floors reported are one apart; between two orders to the motor one is a stop; after a call
for help there are only stops and calls of the firefighters, and the elevator panics exactly after such a call.
The firefighters are called for every alarm, and the maintenance once at most, for a wrong reading on a trip. -/
theorem runMain_safe {depth : ℕ} {commands : List Command} {s : Office} (hdepth : 2 ≤ depth)
    (hs : runMain depth commands = some s) :
    Lift.Safe s.currentFloor.toInt s.motor.order (s.elevator = .panic) s.signals ∧
      s.signals.count .firefighters = (commands.takeWhile (· ≠ .quit)).count .alarm ∧
      (.maintenance ∈ s.signals ↔ ∃ before floor after t,
        commands = before ++ .floorSensor floor :: after ∧ .quit ∉ before ∧ runMain depth before = some t ∧
          t.elevator = .moving ∧ floor.toInt ≠ t.currentFloor.toInt + t.direction.toInt) := by
  obtain ⟨hshows,hsignals⟩ := runMain_shows hdepth hs
  refine ⟨?_,?_,?_⟩
  · have hstart : Lift.Safe 0 .stop False [.stop,.stop] := by
      refine ⟨by decide,rfl,by decide,rfl,?_,by decide,by decide⟩
      simp [Lift.Signal.IsHelp]
    rw [hsignals,hshows.floor_eq,hshows.order_eq,← propext hshows.panic_iff]
    exact Lift.Safe.run (l := .parked 0) hstart _
  · rw [hsignals,List.count_append,Lift.count_firefighters,inputs,count_alarm]
    simp
  · rw [← misread_iff hdepth,← Lift.maintenance_mem_signals,hsignals]
    simp

theorem runMain_safe_alarm :
    ∃ s, runMain 2 [.call 2,.floorSensor 1,.alarm] = some s ∧ s.signals.count .firefighters = 1 := by
  obtain ⟨s,hs,-⟩ := mainLoop_follows 0 [.call 2,.floorSensor 1,.alarm] started_shows
  rw [← runMain_eq (show 2 ≤ 2 from le_rfl)] at hs
  obtain ⟨-,hcount,-⟩ := runMain_safe (show 2 ≤ 2 from le_rfl) hs
  exact ⟨s,hs,hcount⟩

end FDemo.Fsm
