import FDemo.Libhv.Queue
import FDemo.Libhv.ReadBuffer

/-! # Writing to a connection

`hio_write` hands the socket what it takes and queues the rest, `nio_write` goes
on with the queue when the socket is writable again, and `hio_close` waits for a
queue that is not empty. `write_mutex` makes each of them one step, and the
deletion of `HV_WRITE` another one: writes come from any thread, and anything may
happen between two steps. Lengths are below `2 ^ 31`, as `Channel::write` takes
an `int`.
-/
namespace FDemo.Libhv

/-- What `send` answers. -/
inductive Send where
  | wrote (count : ℕ)
  /-- `EAGAIN` or `EINTR` -/
  | again
  | failed (err : ℕ)
  deriving DecidableEq

/-- `offset_buf_t`; `len` is the length of `base`. -/
structure OffsetBuf where
  base : Bytes := []
  offset : ℕ := 0
  deriving DecidableEq

/-- The part of `hio_t` that a write uses. -/
structure WriteIo where
  writeQueue : Queue OffsetBuf := .cleanup
  writeBufsize : UInt32 := 0
  maxWriteBufsize : UInt32 := 0x1000000
  /-- `HV_WRITE` is among the events -/
  hvWrite : Bool := false
  error : ℕ := 0
  /-- to be closed when the queue is empty -/
  close : Bool := false
  closeTimer : Bool := false
  /-- how many close events `hio_close_async` has posted -/
  closing : ℕ := 0
  closed : Bool := false
  deriving DecidableEq

def errOverLimit : ℕ := 1022

def etimedout : ℕ := 110

namespace WriteIo

def hioCloseAsync (io : WriteIo) : WriteIo := { io with closing := io.closing + 1 }

/-- In the thread of the loop. `hio_done` drops what is still queued. -/
def hioClose (io : WriteIo) : WriteIo :=
  if io.closed then io
  else if io.writeQueue.size ≠ 0 ∧ io.error = 0 ∧ ¬ io.close then { io with close := true, closeTimer := true }
  else { io with closed := true, closeTimer := false, hvWrite := false, writeQueue := .cleanup }

/-- `enqueue` and what follows, with the result. -/
def enqueue (io : WriteIo) (buf : Bytes) (nwrite : ℕ) : Except Trap (WriteIo × ℤ) :=
  if nwrite < buf.length then
    if io.maxWriteBufsize.toNat < io.writeBufsize.toNat + buf.length - nwrite then
      .ok ({ io with error := errOverLimit }.hioCloseAsync,-1)
    else do
      let queue := if io.writeQueue.maxsize = 0 then .init {} 4 else io.writeQueue
      let writeQueue ← checked (queue.pushBack {} { base := buf.drop nwrite })
      let writeBufsize := io.writeBufsize + UInt32.ofNat (buf.length - nwrite)
      return ({ io with writeQueue, writeBufsize },nwrite)
  else .ok (io,nwrite)

/-- The result of `hio_write`, and what the socket took at once. -/
def hioWrite (io : WriteIo) (buf : Bytes) (send : Send) : Except Trap (WriteIo × ℤ × Bytes) :=
  if io.closed then .ok (io,-1,[])
  else if io.writeQueue.size = 0 then
    match send with
    | .again => do
      let (io,ret) ← { io with hvWrite := true }.enqueue buf 0
      return (io,ret,[])
    | .failed err => .ok ({ io with error := err }.hioCloseAsync,-1,[])
    | .wrote count =>
      let nwrite := min count buf.length
      if nwrite = 0 then .ok (io.hioCloseAsync,-1,[])
      else if nwrite = buf.length then .ok (io,nwrite,buf)
      else do
        let (io,ret) ← { io with hvWrite := true }.enqueue buf nwrite
        return (io,ret,buf.take nwrite)
  else do
    let (io,ret) ← io.enqueue buf 0
    return (io,ret,[])

/-- `pbuf->offset += nwrite` and `io->write_bufsize -= nwrite`. -/
def advance (io : WriteIo) (pbuf : ℕ) (buf : OffsetBuf) (nwrite : ℕ) : WriteIo :=
  let ptr := io.writeQueue.ptr.set pbuf { buf with offset := buf.offset + nwrite }
  { io with writeQueue := { io.writeQueue with ptr }, writeBufsize := io.writeBufsize - UInt32.ofNat nwrite }

def popFront (io : WriteIo) : Except Trap WriteIo :=
  io.writeQueue.popFront.elim (.error .assertion) fun writeQueue => .ok { io with writeQueue }

/-- What the socket took. The answers of `send` are used up one by one; the socket takes nothing more
when there are none. -/
def nioWrite : ℕ → WriteIo → List Send → Except Trap (WriteIo × Bytes)
  | 0, _, _ => .error .fuel
  | fuel + 1, io, sends =>
    match io.writeQueue.front with
    | none => .ok (if io.close then { io with close := false }.hioClose else io,[])
    | some pbuf => do
      let buf ← checked io.writeQueue.ptr[pbuf]?
      let len := buf.base.length - buf.offset
      match sends.headD .again with
      | .again => return (io,[])
      | .failed err => return ({ io with error := err }.hioClose,[])
      | .wrote count =>
        let nwrite := min count len
        if nwrite = 0 then return (io.hioClose,[])
        let taken := (buf.base.drop buf.offset).take nwrite
        let io := io.advance pbuf buf nwrite
        if nwrite = len then
          let io ← io.popFront
          let (io,rest) ← nioWrite fuel io sends.tail
          return (io,taken ++ rest)
        else return (io,taken)

end WriteIo

inductive WriteEvent where
  /-- a call of `hio_write` in some thread -/
  | write (buf : Bytes) (send : Send)
  /-- the locked part of `hio_handle_events` -/
  | delWrite
  /-- the `nio_write` of `hio_handle_events` -/
  | writable (sends : List Send)
  /-- a call of `hio_close`, in the thread of the loop or in another one -/
  | close (inLoop : Bool)
  /-- the loop comes to a close event -/
  | closeEvent
  | closeTimeout

/-- What an event gave: the result of `hio_write`, and what the socket took. -/
structure Sent where
  ret : Option ℤ := none
  bytes : Bytes := []

namespace WriteIo

def step (fuel : ℕ) (io : WriteIo) : WriteEvent → Except Trap (WriteIo × Sent)
  | .write buf send => do
    let (io,ret,bytes) ← io.hioWrite buf send
    return (io,{ ret, bytes })
  | .delWrite => .ok (if io.writeQueue.size = 0 then { io with hvWrite := false } else io,{})
  | .writable sends =>
    if io.closed then .ok (io,{})
    else do
      let (io,bytes) ← io.nioWrite fuel sends
      return (io,{ bytes })
  | .close inLoop => .ok (if inLoop ∨ io.closed then io.hioClose else io.hioCloseAsync,{})
  | .closeEvent => .ok (if io.closing = 0 then io else { io with closing := io.closing - 1 }.hioClose,{})
  | .closeTimeout =>
    .ok (if io.closeTimer then { io with closeTimer := false, error := etimedout }.hioClose else io,{})

def run (fuel : ℕ) : WriteIo → List WriteEvent → Except Trap (WriteIo × List (WriteEvent × Sent))
  | io, [] => .ok (io,[])
  | io, e :: es => do
    let (io,sent) ← io.step fuel e
    let (io,log) ← run fuel io es
    return (io,(e,sent) :: log)

end WriteIo
end FDemo.Libhv
