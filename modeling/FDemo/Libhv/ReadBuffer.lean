import FDemo.Foundation.Memory
import FDemo.Libhv.Unpack

/-! # The read buffer of a connection

`nio_read` receives into the free end of `io->readbuf`, `hio_unpack` hands the
packages that are complete to the read callback and moves the rest to the front,
and the buffer grows and shrinks between reads. The buffer is a block of memory
with checked accesses and every `assert` is kept. A pointer is an offset from
`base`, `readbuf.len` is the size of the block, and sizes are naturals: the
buffer stays below `2 ^ 31` bytes, where `int` and `size_t` agree.
-/
namespace FDemo.Libhv

/-- Why the process does not come back from a read. -/
inductive Trap where
  | assertion
  | outOfBounds
  | exit
  | fuel
  deriving DecidableEq

def checked {α : Type*} (access : Option α) : Except Trap α := access.elim (.error .outOfBounds) .ok

@[simp] theorem checked_some {α : Type*} (a : α) : checked (some a) = .ok a := rfl

section Bind
universe u
variable {α β : Type u}

@[simp] theorem ok_bind (a : α) (f : α → Except Trap β) : (Except.ok a >>= f) = f a := rfl

@[simp] theorem error_bind (t : Trap) (f : α → Except Trap β) : (Except.error t >>= f) = .error t := rfl

theorem bind_eq_ok {x : Except Trap α} {f : α → Except Trap β} {b : β} :
    (x >>= f) = .ok b ↔ ∃ a, x = .ok a ∧ f a = .ok b := by
  cases x <;> simp

@[simp] theorem pure_eq_ok (a : α) : (pure a : Except Trap α) = .ok a := rfl

end Bind

/-- `fifo_buf_t`. -/
structure FifoBuf where
  base : Bytes
  head : ℕ
  tail : ℕ
  deriving DecidableEq

def FifoBuf.len (b : FifoBuf) : ℕ := b.base.length

/-- The part of `hio_t` that a read uses. The buffer is the connection's own: `hio_set_unpack`
allocates it. -/
structure ReadIo where
  readbuf : FifoBuf
  maxReadBufsize : UInt32
  smallReadbytesCnt : UInt32 := 0
  /-- `hio_close_async` has posted the event that will close the connection -/
  closing : Bool := false
  closed : Bool := false
  deriving DecidableEq

/-- `unpack_setting_t` by mode. -/
inductive Setting where
  | fixedLength (packageMaxLength fixedLength : UInt32)
  | delimiter (packageMaxLength : UInt32) (delimiter : Bytes)
  | lengthField (setting : UnpackSetting)

def hloopReadBufsize : ℕ := 8192

def readBufsizeHighWater : ℕ := 65536

namespace Setting

def packageMaxLength : Setting → UInt32
  | fixedLength max _ => max
  | delimiter max _ => max
  | lengthField s => s.packageMaxLength

/-- `DEFAULT_PACKAGE_MAX_LENGTH` takes the place of zero. -/
def defaultLength (max : UInt32) : UInt32 := if max = 0 then 0x200000 else max

def withDefault : Setting → Setting
  | fixedLength max n => fixedLength (defaultLength max) n
  | delimiter max d => delimiter (defaultLength max) d
  | lengthField s => lengthField { s with packageMaxLength := defaultLength s.packageMaxLength }

/-- The `assert` of the mode. -/
def asserted : Setting → Bool
  | fixedLength max n => n ≠ 0 ∧ n ≤ max
  | delimiter _ _ => true
  | lengthField s => s.lengthFieldOffset.toNat + s.lengthFieldBytes.toNat ≤ s.bodyOffset.toNat

/-- `readbuf.len` to begin with. -/
def readbufLen : Setting → ℕ
  | fixedLength _ n => n.toNat
  | delimiter max _ => min hloopReadBufsize max.toNat
  | lengthField s => min hloopReadBufsize s.packageMaxLength.toNat

end Setting

namespace ReadIo

/-- A length that is negative as an `int` makes `realloc` fail. -/
def hioAllocReadbuf (io : ReadIo) (len : ℕ) : Except Trap ReadIo :=
  if io.maxReadBufsize.toNat < len then .ok { io with closing := true }
  else if 2 ^ 31 ≤ len then .error .exit
  else .ok { io with readbuf := { io.readbuf with base := realloc 0 io.readbuf.base len }, smallReadbytesCnt := 0 }

def hioMemmoveReadbuf (io : ReadIo) : Except Trap ReadIo := do
  let b := io.readbuf
  if b.tail = b.head then return { io with readbuf := { b with head := 0, tail := 0 } }
  else if b.head < b.tail then
    let base ← checked (memmove b.base 0 b.head (b.tail - b.head))
    return { io with readbuf := ⟨base,0,b.tail - b.head⟩ }
  else return io

/-- `hio_read_cb` counts the small packages while the buffer is large. -/
def hioReadCb (io : ReadIo) (package : Bytes) : ReadIo :=
  if readBufsizeHighWater < io.readbuf.len then
    if package.length < io.readbuf.len / 2 then { io with smallReadbytesCnt := io.smallReadbytesCnt + 1 }
    else { io with smallReadbytesCnt := 0 }
  else io

/-- `head = 0`, `tail = remain` and `[p, p+remain] => [base, base+remain]`. -/
def moveRemain (io : ReadIo) (p remain : ℕ) : Except Trap ReadIo := do
  let base ← if remain ≠ 0 ∧ p ≠ 0 then checked (memmove io.readbuf.base 0 p remain) else .ok io.readbuf.base
  return { io with readbuf := ⟨base,0,remain⟩ }

end ReadIo

/-- The packages handed to `hio_read_cb` and where the rest begins. -/
structure Cut where
  calls : List Bytes
  rest : ℕ

/-- `while (remain >= fixed_length)`. -/
def fixedLengthLoop (m : Bytes) (ep n : ℕ) : ℕ → ℕ → Except Trap Cut
  | 0, _ => .error .fuel
  | fuel + 1, p =>
    if n ≤ ep - p then do
      let package ← checked (load m p n)
      let c ← fixedLengthLoop m ep n fuel (p + n)
      return { c with calls := package :: c.calls }
    else .ok ⟨[],p⟩

/-- `while (remain >= delimiter_bytes)`: the package that is not ended yet begins at `sp`. -/
def delimiterLoop (m : Bytes) (ep : ℕ) (delimiter : Bytes) : ℕ → ℕ → ℕ → Except Trap Cut
  | 0, _, _ => .error .fuel
  | fuel + 1, sp, p =>
    if delimiter.length ≤ ep - p then do
      let bytes ← checked (load m p delimiter.length)
      if bytes = delimiter then
        let package ← checked (load m sp (p + delimiter.length - sp))
        let c ← delimiterLoop m ep delimiter fuel (p + delimiter.length) (p + delimiter.length)
        return { c with calls := package :: c.calls }
      else delimiterLoop m ep delimiter fuel sp (p + 1)
    else .ok ⟨[],sp⟩

/-- The loop of `varint_decode` on `*len` bytes from `lp`; zero bytes are no limit. -/
def varintAt (m : Bytes) (lp len : ℕ) : ℕ → ℕ → UInt64 → Except Trap Varint
  | 0, _, _ => .ok .tooBig
  | fuel + 1, bytes, ret =>
    if len ≠ 0 ∧ bytes = len then .ok .notEnough
    else do
      let b ← checked m[lp + bytes]?
      let ret := ret ||| (b &&& 0x7F).toUInt64 <<< UInt64.ofNat (7 * bytes)
      if b &&& 0x80 = 0 then return .decoded ret (bytes + 1)
      else varintAt m lp len fuel (bytes + 1) ret

def packageLenAt (s : UnpackSetting) (m : Bytes) (ep p : ℕ) : Except Trap Package := do
  let lp := p + s.lengthFieldOffset.toNat
  let adjustment := s.lengthAdjustment.toInt32.toUInt32
  match s.lengthFieldCoding with
  | .bigEndian =>
    let field ← checked (load m lp s.lengthFieldBytes.toNat)
    return .length (s.bodyOffset.toUInt32 + readBigEndian field + adjustment)
  | .littleEndian =>
    let field ← checked (load m lp s.lengthFieldBytes.toNat)
    return .length (s.bodyOffset.toUInt32 + readLittleEndian field + adjustment)
  | .varint =>
    match ← varintAt m lp (ep - lp) 10 0 0 with
    | .notEnough => return .incomplete
    | .tooBig => return .overLimit
    | .decoded value bytes =>
      return .length (s.bodyOffset.toUInt32 + UInt32.ofNat bytes - s.lengthFieldBytes.toUInt32 + value.toUInt32 +
        adjustment)

/-- What the loop over packages with a length field leaves. -/
structure LengthCut extends Cut where
  packageLen : UInt32
  overLimit : Bool

/-- `while (remain >= setting->body_offset)`. -/
def lengthFieldLoop (s : UnpackSetting) (m : Bytes) (ep : ℕ) : ℕ → ℕ → UInt32 → Except Trap LengthCut
  | 0, _, _ => .error .fuel
  | fuel + 1, p, len =>
    if s.bodyOffset.toNat ≤ ep - p then do
      match ← packageLenAt s m ep p with
      | .incomplete => return ⟨⟨[],p⟩,len,false⟩
      | .overLimit => return ⟨⟨[],p⟩,len,true⟩
      | .length n =>
        if n.toNat ≤ ep - p then
          let package ← checked (load m p n.toNat)
          let c ← lengthFieldLoop s m ep fuel (p + n.toNat) n
          return { c with calls := package :: c.calls }
        else return ⟨⟨[],p⟩,n,false⟩
    else .ok ⟨⟨[],p⟩,len,false⟩

namespace ReadIo

/-- `ep` is `buf + readbytes`. -/
def hioUnpackByFixedLength (fixedLength : UInt32) (fuel : ℕ) (io : ReadIo) (ep : ℕ) :
    Except Trap (List Bytes × ReadIo) := do
  if io.readbuf.len < fixedLength.toNat then throw .assertion
  let c ← fixedLengthLoop io.readbuf.base ep fixedLength.toNat fuel io.readbuf.head
  let io ← moveRemain (c.calls.foldl hioReadCb io) c.rest (ep - c.rest)
  return (c.calls,io)

/-- The end of `hio_unpack_by_delimiter`: a full buffer holds a package that is not ended yet. -/
def growFull (max : UInt32) (io : ReadIo) : Except Trap ReadIo :=
  if io.readbuf.tail ≠ 0 ∧ io.readbuf.tail = io.readbuf.len then
    if max.toNat ≤ io.readbuf.len then .ok { io with closed := true }
    else io.hioAllocReadbuf (min (io.readbuf.len * 2) max.toNat)
  else .ok io

def hioUnpackByDelimiter (max : UInt32) (delimiter : Bytes) (fuel : ℕ) (io : ReadIo) (buf ep : ℕ) :
    Except Trap (List Bytes × ReadIo) := do
  let sp := io.readbuf.head
  -- a delimiter that ends in the new bytes may begin before `buf`
  let p := if buf + 1 - delimiter.length < sp then sp else buf + 1 - delimiter.length
  let c ← delimiterLoop io.readbuf.base ep delimiter fuel sp p
  let io ← moveRemain (c.calls.foldl hioReadCb io) c.rest (ep - c.rest)
  return (c.calls,← io.growFull max)

/-- The end of `hio_unpack_by_length_field`: the package that is not complete may need a longer buffer. -/
def growFor (s : UnpackSetting) (packageLen : UInt32) (io : ReadIo) : Except Trap ReadIo :=
  if io.readbuf.tail ≠ 0 ∧ io.readbuf.len < packageLen.toNat then
    if s.packageMaxLength < packageLen then .ok { io with closed := true }
    else io.hioAllocReadbuf (limit packageLen.toNat (io.readbuf.len * 2) s.packageMaxLength.toNat)
  else .ok io

def hioUnpackByLengthField (s : UnpackSetting) (fuel : ℕ) (io : ReadIo) (ep : ℕ) :
    Except Trap (List Bytes × ReadIo) := do
  let c ← lengthFieldLoop s io.readbuf.base ep fuel io.readbuf.head s.bodyOffset.toUInt32
  let io := c.calls.foldl hioReadCb io
  if c.overLimit then return (c.calls,{ io with closed := true })
  let io ← moveRemain io c.rest (ep - c.rest)
  return (c.calls,← io.growFor s c.packageLen)

def hioUnpack (setting : Setting) (fuel : ℕ) (io : ReadIo) (buf ep : ℕ) : Except Trap (List Bytes × ReadIo) :=
  match setting with
  | .fixedLength _ n => hioUnpackByFixedLength n fuel io ep
  | .delimiter max d => hioUnpackByDelimiter max d fuel io buf ep
  | .lengthField s => hioUnpackByLengthField s fuel io ep

/-- The end of `hio_handle_read`. -/
def autosize (io : ReadIo) : Except Trap ReadIo :=
  if io.readbuf.tail = io.readbuf.len then
    if io.readbuf.head = 0 then io.hioAllocReadbuf (io.readbuf.len * 2) else io.hioMemmoveReadbuf
  else if io.readbuf.tail < io.readbuf.len / 2 ∧ 3 ≤ io.smallReadbytesCnt then
    io.hioAllocReadbuf (io.readbuf.len / 2)
  else .ok io

/-- `if (head == tail) head = tail = 0`. -/
def resetEmpty (io : ReadIo) : ReadIo :=
  if io.readbuf.head = io.readbuf.tail then { io with readbuf := { io.readbuf with head := 0, tail := 0 } } else io

/-- After `hio_close` the buffer is gone and what follows is without effect. -/
def hioHandleRead (setting : Setting) (fuel : ℕ) (io : ReadIo) (buf ep : ℕ) : Except Trap (List Bytes × ReadIo) := do
  let (calls,io) ← hioUnpack setting fuel io buf ep
  if io.closed then return (calls,io)
  return (calls,← io.resetEmpty.autosize)

/-- One readable event of `nio_read`, of a socket that has `queue` to give and hands out at most
`count` bytes of it: what the callback got, and what is still in the socket. -/
def nioRead (setting : Setting) (fuel : ℕ) (io : ReadIo) (queue : Bytes) (count : ℕ) :
    Except Trap (List Bytes × ReadIo × Bytes) := do
  let len := io.readbuf.len - io.readbuf.tail
  if len = 0 then throw .assertion
  let bytes := queue.take (min count len)
  if bytes = [] then return ([],io,queue)
  let base ← checked (store io.readbuf.base io.readbuf.tail bytes)
  let buf := io.readbuf.tail
  let ep := buf + bytes.length
  let (calls,io) ← hioHandleRead setting fuel { io with readbuf := { io.readbuf with base, tail := ep } } buf ep
  return (calls,io,queue.drop bytes.length)

/-- Readable events until they end or the connection is closed, with the numbers of bytes that
`recv` is ready to give. -/
def nioReads (setting : Setting) (fuel : ℕ) : ReadIo → Bytes → List ℕ → Except Trap (List Bytes × ReadIo × Bytes)
  | io, queue, [] => .ok ([],io,queue)
  | io, queue, count :: counts =>
    if io.closed then .ok ([],io,queue)
    else do
      let (calls,io,queue) ← nioRead setting fuel io queue count
      let (rest,io,queue) ← nioReads setting fuel io queue counts
      return (calls ++ rest,io,queue)

/-- `hio_set_unpack` on a connection that has no setting yet, and the setting it completed. -/
def hioSetUnpack (setting : Setting) : Except Trap (Setting × ReadIo) := do
  let setting := setting.withDefault
  if ¬ setting.asserted then throw .assertion
  let io : ReadIo := { readbuf := ⟨[],0,0⟩, maxReadBufsize := setting.packageMaxLength }
  return (setting,← io.hioAllocReadbuf setting.readbufLen)

end ReadIo
end FDemo.Libhv
