import FDemo.Fsm.TinyFsm
import Mathlib.Algebra.Ring.Int.Defs

/-! # The elevator of `office_demo_elevator`

Two machines, `Motor` and `Elevator`, get every event one after the other. The
elevator sends the motor its events while it reacts to a call, an arrival or an
alarm. Floors are `int`, and a sum that does not fit one has no result. What the
program prints is a list of lines.
-/
namespace FDemo.Fsm
open TinyFsm

inductive Event where
  | call (floor : Int32)
  | floorSensor (floor : Int32)
  | alarm
  | motorUp
  | motorDown
  | motorStop
  deriving DecidableEq

inductive MotorState where
  | stopped
  | up
  | down
  deriving DecidableEq

inductive ElevatorState where
  | panic
  | moving
  | idle
  deriving DecidableEq

inductive Line where
  | motorStopped
  | motorUp
  | motorDown
  | callingMaintenance
  | callingFirefighters
  | floorSensorDefect (expected got : Int32)
  | reachedFloor (floor : Int32)
  | callIgnored
  | floorSensorIgnored
  | prompt
  | floorPrompt
  | thanks
  | invalidInput
  deriving DecidableEq

def Line.text : Line → String
  | motorStopped => "Motor: stopped"
  | motorUp => "Motor: moving up"
  | motorDown => "Motor: moving down"
  | callingMaintenance => "*** calling maintenance ***"
  | callingFirefighters => "*** calling firefighters ***"
  | floorSensorDefect expected got =>
    "Floor sensor defect (expected " ++ toString expected ++ ", got " ++ toString got ++ ")"
  | reachedFloor floor => "Reached floor " ++ toString floor
  | callIgnored => "Call event ignored"
  | floorSensorIgnored => "FloorSensor event ignored"
  | prompt => "c=Call, f=FloorSensor, a=Alarm, q=Quit ? "
  | floorPrompt => "Floor ? "
  | thanks => "Thanks for playing!"
  | invalidInput => "Invalid input"

/-- The static memory of the program, and what it has printed. -/
structure Office where
  motor : MotorState := .stopped
  direction : Int32 := 0
  elevator : ElevatorState := .idle
  currentFloor : Int32 := 0
  destFloor : Int32 := 0
  out : List Line := []
  deriving DecidableEq

def Office.print (s : Office) (line : Line) : Office := { s with out := s.out ++ [line] }

/-- The sum of two `int`s. -/
def addInt (a b : Int32) : Option Int32 :=
  let sum := a.toInt + b.toInt
  if -2 ^ 31 ≤ sum ∧ sum < 2 ^ 31 then some (Int32.ofInt sum) else none

def motor : Machine Office MotorState where
  currentState := Office.motor
  setCurrentState state s := { s with motor := state }
  initialState := .stopped
  entry
    | .stopped, s => some { s.print .motorStopped with direction := 0 }
    | .up, s => some { s.print .motorUp with direction := 1 }
    | .down, s => some { s.print .motorDown with direction := -1 }
  exit _ := some

def Motor.react (e : Event) (s : Office) : Option Office :=
  match e with
  | .motorStop => motor.transit .stopped some s
  | .motorUp => motor.transit .up some s
  | .motorDown => motor.transit .down some s
  | .call _ | .floorSensor _ | .alarm => some s

def callMaintenance (s : Office) : Option Office := some (s.print .callingMaintenance)

def callFirefighters (s : Office) : Option Office := some (s.print .callingFirefighters)

section Elevator
variable (send : Event → Office → Option Office)

def elevator : Machine Office ElevatorState where
  currentState := Office.elevator
  setCurrentState state s := { s with elevator := state }
  initialState := .idle
  entry
    | .panic, s => send .motorStop s
    | .moving, s => some s
    | .idle, s => send .motorStop s
  exit _ := some

def Moving.reactFloorSensor (floor : Int32) (s : Office) : Option Office := do
  let floorExpected ← addInt s.currentFloor s.direction
  if floorExpected ≠ floor then
    (elevator send).transit .panic callMaintenance (s.print (.floorSensorDefect floorExpected floor))
  else
    let s := { s.print (.reachedFloor floor) with currentFloor := floor }
    if floor = s.destFloor then (elevator send).transit .idle some s else some s

/-- The action of the transition to `Moving`. -/
def Idle.startMotor (s : Office) : Option Office :=
  if s.destFloor > s.currentFloor then send .motorUp s
  else if s.destFloor < s.currentFloor then send .motorDown s
  else some s

def Idle.reactCall (floor : Int32) (s : Office) : Option Office :=
  let s := { s with destFloor := floor }
  if s.destFloor = s.currentFloor then some s else (elevator send).transit .moving (Idle.startMotor send) s

def Elevator.react (e : Event) (s : Office) : Option Office :=
  match e with
  | .call floor =>
    match s.elevator with
    | .idle => Idle.reactCall send floor s
    | .panic | .moving => some (s.print .callIgnored)
  | .floorSensor floor =>
    match s.elevator with
    | .moving => Moving.reactFloorSensor send floor s
    | .panic | .idle => some (s.print .floorSensorIgnored)
  | .alarm => (elevator send).transit .panic callFirefighters s
  | .motorUp | .motorDown | .motorStop => some s

/-- `FsmList<Motor, Elevator>`. -/
def fsmList : List (Member Office Event) :=
  [⟨motor.setInitialState,motor.enter,Motor.react⟩,
    ⟨(elevator send).setInitialState,(elevator send).enter,Elevator.react send⟩]

end Elevator

/-- A well-formed line of the input: a letter, and a number where a floor is read. -/
inductive Command where
  | call (floor : Int32)
  | floorSensor (floor : Int32)
  | alarm
  | quit
  | invalid
  deriving DecidableEq

/-- `main` after the lines it has read so far, or until it quits. The source never tests its input: it loops
for ever when the input ends without a `q` or when a floor is no number, and neither is a line here. -/
def mainLoop (depth : ℕ) : Office → List Command → Option Office
  | s, [] => some (s.print .prompt)
  | s, command :: commands => do
    let s := s.print .prompt
    match command with
    | .call floor =>
      let s ← sendEvent fsmList depth (.call floor) (s.print .floorPrompt)
      mainLoop depth s commands
    | .floorSensor floor =>
      let s ← sendEvent fsmList depth (.floorSensor floor) (s.print .floorPrompt)
      mainLoop depth s commands
    | .alarm =>
      let s ← sendEvent fsmList depth .alarm s
      mainLoop depth s commands
    | .quit => some (s.print .thanks)
    | .invalid => mainLoop depth (s.print .invalidInput) commands

def runMain (depth : ℕ) (commands : List Command) : Option Office := do
  let s ← FsmList.start (fsmList (sendEvent fsmList depth)) {}
  mainLoop depth s commands

end FDemo.Fsm
