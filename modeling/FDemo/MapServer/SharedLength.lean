import FDemo.Foundation.Threads
import FDemo.MapServer.StreamFraming

/-! # Framing on several threads

The length of a frame passes through a static member. A call of
`toBigEndianByteStream` stores it there and reads it back later; when another
call has stored a different length in between, the frame announces that one.
-/
namespace FDemo.MapServer
open Libhv Threads

/-- A call of `toBigEndianByteStream` between its atomic steps. -/
inductive FramingCall where
  | called (data : Bytes)
  | stored (data : Bytes)
  | returned (stream : Bytes)

/-- The shared state is `UnPack::data_length`. -/
def framingStep (dataLength : UInt32) : FramingCall → UInt32 × FramingCall × Option Bytes
  | .called data => (UInt32.ofNat data.length,.stored data,none)
  | .stored data =>
    let stream := serialize magicNumber ++ serialize dataLength ++ data
    (dataLength,.returned stream,some stream)
  | .returned stream => (dataLength,.returned stream,none)

variable {ι : Type*} [DecidableEq ι] (data : ι → Bytes)

def framingStart : Config ι UInt32 FramingCall := ⟨0,fun i => .called (data i)⟩

/-- The streams returned over a schedule, each with its call. -/
def framed (schedule : List ι) : List (ι × Bytes) := results framingStep (framingStart data) schedule

/-- The call that stored last, given the turns so far with the latest first: a call stores in its first turn. -/
def lastStore : List ι → Option ι
  | [] => none
  | i :: earlier => if i ∈ earlier then lastStore earlier else some i

/-- Whenever a call reads the length, in its second turn, the last one stored is as long as its own. -/
def LengthKept (schedule : List ι) : Prop := EachTurn (fun pre i => pre.count i = 1 →
  ∀ j, lastStore pre.reverse = some j → UInt32.ofNat (data j).length = UInt32.ofNat (data i).length) schedule

theorem lastStore_concat (schedule : List ι) (i : ι) : lastStore (schedule ++ [i]).reverse =
    if i ∈ schedule then lastStore schedule.reverse else some i := by
  simp [lastStore]

theorem lastStore_ne_none {schedule : List ι} (h : schedule ≠ []) : lastStore schedule.reverse ≠ none := by
  induction schedule using List.reverseRecOn with
  | nil => exact absurd rfl h
  | append_singleton schedule i ih =>
    rw [lastStore_concat]
    split
    · rename_i hmem
      exact ih (List.ne_nil_of_mem hmem)
    · exact Option.some_ne_none i

/-- Where a call is after some turns of its own. -/
def FramingCall.After (data : Bytes) : ℕ → FramingCall → Prop
  | 0,call => call = .called data
  | 1,call => call = .stored data
  | _ + 2,call => ∃ stream, call = .returned stream

theorem after_framingStep {data : Bytes} {n : ℕ} {dataLength : UInt32} {call : FramingCall}
    (h : FramingCall.After data n call) : FramingCall.After data (n + 1) (framingStep dataLength call).2.1 := by
  match n,h with
  | 0,h =>
    obtain rfl : call = .called data := h
    exact rfl
  | 1,h =>
    obtain rfl : call = .stored data := h
    exact ⟨_,rfl⟩
  | n + 2,h =>
    obtain ⟨stream,rfl⟩ := h
    exact ⟨stream,rfl⟩

theorem framingCall_after (schedule : List ι) (i : ι) : FramingCall.After (data i) (schedule.count i)
    ((run framingStep (framingStart data) schedule).calls i) :=
  calls_run (P := fun i => FramingCall.After (data i)) (fun _ _ _ _ => after_framingStep)
    (c := framingStart data) (fun _ => rfl) schedule i

theorem dataLength_run (schedule : List ι) {j : ι} (hj : lastStore schedule.reverse = some j) :
    (run framingStep (framingStart data) schedule).shared = UInt32.ofNat (data j).length := by
  induction schedule using List.reverseRecOn generalizing j with
  | nil => exact absurd hj (Option.some_ne_none j).symm
  | append_singleton schedule i ih =>
    have hafter := framingCall_after data schedule i
    rw [lastStore_concat] at hj
    rw [run_concat,turn_shared]
    by_cases hmem : i ∈ schedule
    · rw [if_pos hmem] at hj
      match hn : schedule.count i,hafter with
      | 0,_ => exact absurd (List.count_eq_zero.mp hn) (not_not.mpr hmem)
      | 1,hafter =>
        rw [show (run framingStep (framingStart data) schedule).calls i = .stored (data i) from hafter]
        exact ih hj
      | n + 2,hafter =>
        obtain ⟨stream,hstream⟩ := hafter
        rw [hstream]
        exact ih hj
    · rw [if_neg hmem] at hj
      obtain rfl := Option.some.inj hj
      rw [List.count_eq_zero.mpr hmem] at hafter
      rw [show (run framingStep (framingStart data) schedule).calls i = .called (data i) from hafter]
      rfl

/-- The result of a turn: the second turn of a call returns its stream, no other turn returns anything. -/
theorem framing_turn_result (schedule : List ι) (i : ι) :
    (turn framingStep (run framingStep (framingStart data) schedule) i).2 =
      if schedule.count i = 1 then some (serialize magicNumber ++
        serialize (run framingStep (framingStart data) schedule).shared ++ data i) else none := by
  have hafter := framingCall_after data schedule i
  rw [turn_result]
  match hn : schedule.count i,hafter with
  | 0,hafter =>
    rw [show (run framingStep (framingStart data) schedule).calls i = .called (data i) from hafter]
    rfl
  | 1,hafter =>
    rw [show (run framingStep (framingStart data) schedule).calls i = .stored (data i) from hafter]
    rfl
  | n + 2,hafter =>
    obtain ⟨stream,hstream⟩ := hafter
    rw [hstream]
    rfl

theorem serialize_injective {v w : UInt32} (h : serialize v = serialize w) : v = w := by
  rw [← readBigEndian_serialize v,h,readBigEndian_serialize]

/-- Every frame announces its own length exactly when no call reads a length other than its own. -/
theorem framed_eq_iff_lengthKept (schedule : List ι) :
    (∀ r ∈ framed data schedule, r.2 = toBigEndianByteStream (data r.1)) ↔ LengthKept data schedule := by
  induction schedule using List.reverseRecOn with
  | nil =>
    refine ⟨fun _ pre i post h => ?_,fun _ r hr => absurd hr List.not_mem_nil⟩
    exact absurd h (by simp)
  | append_singleton schedule i ih =>
    unfold framed LengthKept at ih ⊢
    rw [results_concat,eachTurn_concat,List.forall_mem_append,ih,framing_turn_result]
    refine and_congr_right (fun _ => ?_)
    by_cases hn : schedule.count i = 1
    · have hmem : i ∈ schedule := List.count_pos_iff.mp (by omega)
      obtain ⟨j,hj⟩ := Option.ne_none_iff_exists'.mp (lastStore_ne_none (List.ne_nil_of_mem hmem))
      rw [if_pos hn,dataLength_run data schedule hj]
      simp only [Option.map_some,Option.toList_some,List.forall_mem_singleton,hn,hj,forall_const,Option.some.injEq,
        forall_eq',toBigEndianByteStream,List.append_cancel_right_eq,List.append_cancel_left_eq]
      exact ⟨serialize_injective,congrArg serialize⟩
    · simp [hn]

/-- Two calls at once, where the longer one stores its length before the shorter one reads. -/
theorem framed_between : ¬ ∀ (data : Bool → Bytes) (schedule : List Bool),
    ∀ r ∈ framed data schedule, r.2 = toBigEndianByteStream (data r.1) := by
  intro h
  have hwrong := h (fun b => if b then [1,2] else [1]) [false,true,false] (false,serialize magicNumber ++ serialize 2 ++ [1])
    (by decide)
  exact absurd hwrong (by decide)

end FDemo.MapServer
