import FDemo.Libhv.BufferedWrites
import FDemo.MapServer.BufferedStream
import FDemo.MapServer.ConcurrentUploads
import FDemo.MapServer.FileStore

/-! # Many connections to one server

Every connection has its own socket, read buffer, write queue and handler, and
all handlers share the one server. A readable event fills a connection's list of
packages, which its handler takes in turn. An upload walks through the three
steps of its branch, and the steps of different connections come in any order.
Any other message is handled in one step: nobody writes a file that is being
read, or frames an answer in between. The answer goes through the write queue.
-/
namespace FDemo.MapServer
open Packet Mealy Libhv Threads

/-- A connection with the bytes its peer has sent, the packages that wait for the handler, and what has
happened on its write side. -/
structure Connection where
  io : ReadIo
  queue : Bytes
  pending : List Bytes := []
  out : WriteIo := {}
  writes : List (WriteEvent × Sent) := []

/-- The calls are the last uploads of the connections. Each has returned or keeps its handler busy. -/
structure Network (ι : Type*) extends Config ι Server UploadCall where
  conns : ι → Connection

inductive NetEvent (ι : Type*) where
  /-- the socket of a connection is readable and gives so many bytes at most -/
  | readable (i : ι) (count : ℕ)
  /-- the handler of a connection is called with the next package -/
  | handle (i : ι) (read : ℕ → ReadOps) (save : SaveOps) (send : ℕ → Send)
  /-- the handler of a connection takes the next step of an upload -/
  | proceed (i : ι)
  /-- the socket of a connection is writable, or somebody wants the connection closed -/
  | socket (i : ι) (e : WriteEvent)

/-- One call of the handler: its request and what it wrote to its channel. -/
structure Handling (ι : Type*) where
  conn : ι
  request : Request
  sent : List Bytes

/-- A request and all that came of it, without an exception. -/
def Handling.answered {ι : Type*} (h : Handling ι) : Request × List Bytes × Option Exception := (h.request,h.sent,none)

/-- Why a run is not followed any further. -/
inductive Stop where
  | trap (t : Trap)
  | exception (e : Exception)
  /-- the read side of a connection wants it closed -/
  | refused

def Connection.happen (fuel : ℕ) (c : Connection) (es : List WriteEvent) : Except Stop Connection :=
  match c.out.run fuel es with
  | .error t => .error (.trap t)
  | .ok (out,writes) => .ok { c with out, writes := c.writes ++ writes }

/-- `for(const auto& msg : send_file_vector) channel->write(msg)`. -/
def channelWrites (frames : List Bytes) (send : ℕ → Send) : List WriteEvent :=
  frames.zipIdx.map fun x => .write x.1 (send x.2)

/-- The file of a package that takes the upload branch. -/
def uploadIn (pb : Protobuf) (buf : Bytes) : Option File :=
  if buf.length < headBodyLength then none else fileIn (pb.parseFromString (stripHeader buf)).1

variable {ι : Type*} [DecidableEq ι]

namespace Network

/-- A package that waits and an upload that is under way keep the event loop from reading on. -/
def step (pb : Protobuf) (fuel : ℕ) (net : Network ι) : NetEvent ι → Except Stop (Network ι × Option (Handling ι))
  | .readable i count =>
    let c := net.conns i
    if c.out.closed ∨ c.pending ≠ [] ∨ (net.calls i).upload ≠ none then .ok (net,none)
    else
      match c.io.nioRead streamSetting fuel c.queue count with
      | .error t => .error (.trap t)
      | .ok (pending,io,queue) =>
        if io.closed ∨ io.closing then .error .refused
        else .ok ({ net with conns := Function.update net.conns i { c with io, queue, pending } },none)
  | .handle i read save send =>
    let c := net.conns i
    match (net.calls i).upload,c.pending with
    | none,buf :: pending =>
      match uploadIn pb buf with
      | some file =>
        let calls := Function.update net.calls i (.called (file,save))
        .ok ({ net with calls, conns := Function.update net.conns i { c with pending } },none)
      | none =>
        let h := tcpOnMessage pb net.shared read save buf
        match h.exception,{ c with pending }.happen fuel (channelWrites h.sent send) with
        | some e,_ => .error (.exception e)
        | none,.error stop => .error stop
        | none,.ok c =>
          let request := { message := (pb.parseFromString (stripHeader buf)).1, read, save }
          .ok ({ net with shared := h.server, conns := Function.update net.conns i c },some ⟨i,request,h.sent⟩)
    | _,_ => .ok (net,none)
  | .proceed i =>
    let t := turn uploadStep net.toConfig i
    match t.2 with
    | none => .ok ({ net with toConfig := t.1 },none)
    | some .threw => .error (.exception .rangeError)
    | some _ =>
      let handled := (net.calls i).upload.map fun e =>
        (⟨i,{ message := fileMessage e.1, save := e.2 },[]⟩ : Handling ι)
      .ok ({ net with toConfig := t.1 },handled)
  | .socket i e =>
    match (net.conns i).happen fuel [e] with
    | .error stop => .error stop
    | .ok c => .ok ({ net with conns := Function.update net.conns i c },none)

def run (pb : Protobuf) (fuel : ℕ) : Network ι → List (NetEvent ι) → Except Stop (Network ι × List (Handling ι))
  | net, [] => .ok (net,[])
  | net, e :: es =>
    match net.step pb fuel e with
    | .error stop => .error stop
    | .ok (net,done) => (net.run pb fuel es).map fun r => (r.1,done.toList ++ r.2)

end Network

def messageFrame (pb : Protobuf) (m : Message) : Bytes := toBigEndianByteStream (pb.serializeToString m)

/-- Every peer has sent its messages, the connections are new, and no upload is under way. -/
def Network.start (pb : Protobuf) (io : ReadIo) (d : Disk) (script : ι → List Message) : Network ι where
  shared := .fresh d
  calls _ := .returned .waiting
  conns i := { io := io, queue := ((script i).map (messageFrame pb)).flatten }

def messagesOf (i : ι) (log : List (Handling ι)) : List Message :=
  (log.filter fun h => decide (h.conn = i)).map fun h => h.request.message

def answersTo (i : ι) (log : List (Handling ι)) : List Bytes :=
  (log.filter fun h => decide (h.conn = i)).flatMap Handling.sent

/-- The message of an upload that has not received yet. -/
def UploadCall.started : UploadCall → List Message
  | called e => [fileMessage e.1]
  | infoSet e => [fileMessage e.1]
  | received _ _ => []
  | returned _ => []

/-! ### The read side of one connection -/

/-- Where a connection stands: what the handler has taken, what waits, and what is still on its way. -/
structure Standing (pb : Protobuf) (script : List Message) (c : Connection) (taken waiting unread : List Message)
    (r : Bytes) : Prop where
  split : script = taken ++ (waiting ++ unread)
  pending : c.pending = waiting.map (messageFrame pb)
  ready : Ready streamSetting c.io r
  waits : streamSetting.peel r = none
  stream : (unread.map (messageFrame pb)).flatten = r ++ c.queue

section ReadSide
variable {pb : Protobuf} {script taken waiting unread : List Message} {c : Connection} {r : Bytes}

theorem map_messageFrame (ms : List Message) :
    ms.map (messageFrame pb) = (ms.map pb.serializeToString).map toBigEndianByteStream := by
  rw [List.map_map]
  rfl

theorem Standing.readable (h : Standing pb script c taken waiting unread r)
    (hfit : ∀ m ∈ script, Fits (pb.serializeToString m)) (hidle : c.pending = []) {fuel : ℕ}
    (hfuel : defaultPackageMaxLength.toNat < fuel) (count : ℕ) : ∃ pending io queue waiting' unread' r',
      c.io.nioRead streamSetting fuel c.queue count = .ok (pending,io,queue) ∧
      Standing pb script { c with io, queue, pending } taken waiting' unread' r' := by
  obtain rfl : waiting = [] := List.map_eq_nil_iff.mp (h.pending.symm.trans hidle)
  have hfit' : ∀ x ∈ unread.map pb.serializeToString, Fits x := by
    intro x hx
    obtain ⟨m,hm,rfl⟩ := List.mem_map.mp hx
    exact hfit m (by simp [h.split,hm])
  have hcut := h.stream
  rw [map_messageFrame] at hcut
  obtain ⟨ys,zs,io,r',rest,hsplit,hread,hready,hwaits,hrest⟩ := nioRead_frames hfit' h.ready h.waits hcut hfuel count
  obtain ⟨waiting',unread',rfl,rfl,rfl⟩ := List.map_eq_append_iff.mp hsplit
  refine ⟨_,io,rest,waiting',unread',r',hread,?_⟩
  exact ⟨by simpa using h.split,(map_messageFrame _).symm,hready,hwaits,by rwa [map_messageFrame]⟩

theorem Standing.handle (h : Standing pb script c taken waiting unread r) {buf : Bytes} {pending : List Bytes}
    (hpending : c.pending = buf :: pending) : ∃ m waiting', m ∈ script ∧ buf = messageFrame pb m ∧
      Standing pb script { c with pending } (taken ++ [m]) waiting' unread r := by
  obtain ⟨m,waiting',rfl,rfl,rfl⟩ := List.map_eq_cons_iff.mp (h.pending.symm.trans hpending)
  exact ⟨m,waiting',by simp [h.split],rfl,by simpa using h.split,rfl,h.ready,h.waits,h.stream⟩

theorem Standing.withWrites (h : Standing pb script c taken waiting unread r) (out : WriteIo)
    (writes : List (WriteEvent × Sent)) : Standing pb script { c with out, writes } taken waiting unread r :=
  ⟨h.split,h.pending,h.ready,h.waits,h.stream⟩

theorem Standing.done (h : Standing pb script c taken waiting unread r)
    (hfit : ∀ m ∈ script, Fits (pb.serializeToString m)) (hqueue : c.queue = []) : unread = [] := by
  have hstream := h.stream
  rw [hqueue,List.append_nil] at hstream
  cases unread with
  | nil => rfl
  | cons m unread =>
    have hsome := framing_within.peel_encode (pb.serializeToString m) (unread.map (messageFrame pb)).flatten
      (hfit m (by simp [h.split]))
    have hwaits := h.waits
    rw [← hstream,List.map_cons,List.flatten_cons] at hwaits
    exact absurd (hwaits.symm.trans hsome) (Option.some_ne_none _).symm

theorem parse_messageFrame {m : Message} (hm : pb.Inverts m) :
    (pb.parseFromString (stripHeader (messageFrame pb m))).1 = m := by
  rw [messageFrame,stripHeader_toBigEndianByteStream,hm]

theorem headed_messageFrame (m : Message) : ¬ (messageFrame pb m).length < headBodyLength := by
  simp [messageFrame,headBodyLength]

theorem tcpOnMessage_messageFrame {m : Message} (hm : pb.Inverts m) (s : Server) (read : ℕ → ReadOps) (save : SaveOps) :
    tcpOnMessage pb s read save (messageFrame pb m) = dispatch pb s read save m := by
  rw [tcpOnMessage,if_neg (headed_messageFrame m),parse_messageFrame hm]

theorem uploadIn_messageFrame {m : Message} (hm : pb.Inverts m) : uploadIn pb (messageFrame pb m) = fileIn m := by
  rw [uploadIn,if_neg (headed_messageFrame m),parse_messageFrame hm]

end ReadSide

/-! ### The write side of one connection -/

/-- What became of the answers that a connection was given: they were written one after the other, the socket
took a prefix of what was accepted, and the rest is queued while the connection is open. A write that
succeeds accepts its whole frame, and all of them do when the socket works, nobody closes the connection
and the answers fit into the write queue. -/
structure Connection.Delivers (c : Connection) (answers : List Bytes) : Prop where
  written : buffersWritten (c.writes.map Prod.fst) = answers
  order : sentBytes c.writes <+: acceptedBytes c.writes
  queued : c.out.closed = false →
    ∃ P, acceptedBytes c.writes = sentBytes c.writes ++ P ∧ Libhv.Writes 0x1000000 c.out P
  accepts : (∀ x ∈ c.writes, Succeeded x) → acceptedBytes c.writes = answers.flatten
  calm : (∀ x ∈ c.writes, x.1.Calm) → answers.flatten.length ≤ 2 ^ 24 →
    ∃ P, answers.flatten = sentBytes c.writes ++ P ∧ Libhv.Writes 0x1000000 c.out P

/-- The write side of a connection is a run of a new one. -/
structure Connection.Wrote (fuel : ℕ) (c : Connection) (answers : List Bytes) : Prop where
  ran : ({} : WriteIo).run fuel (c.writes.map Prod.fst) = .ok (c.out,c.writes)
  written : buffersWritten (c.writes.map Prod.fst) = answers

theorem buffersWritten_channelWrites (frames : List Bytes) (send : ℕ → Send) :
    buffersWritten (channelWrites frames send) = frames := by
  rw [buffersWritten,channelWrites,List.filterMap_map]
  exact (congrFun List.filterMap_eq_map frames.zipIdx).trans (List.zipIdx_map_fst 0 frames)

section WriteSide
variable {c : Connection} {answers : List Bytes} {fuel : ℕ}

theorem Connection.Wrote.happen (h : c.Wrote fuel answers) (hfuel : UInt32.size ≤ fuel) (es : List WriteEvent) :
    ∃ out writes, c.happen fuel es = .ok { c with out, writes } ∧
      Connection.Wrote fuel { c with out, writes } (answers ++ buffersWritten es) := by
  obtain ⟨io,log,P,hrun,-,hleft,-⟩ := run_new 0x1000000 hfuel (c.writes.map Prod.fst)
  obtain ⟨rfl,rfl⟩ := Prod.mk.inj (Except.ok.inj (h.ran.symm.trans hrun))
  obtain ⟨io',log',P',hrun',hes,-,-⟩ := hleft.run hfuel es
  refine ⟨io',c.writes ++ log',by rw [Connection.happen,hrun'],?_,?_⟩
  · rw [List.map_append,hes]
    exact WriteIo.run_append h.ran hrun'
  · rw [List.map_append,hes,← h.written]
    exact List.filterMap_append

theorem Connection.Wrote.delivers (h : c.Wrote fuel answers) (hfuel : UInt32.size ≤ fuel) : c.Delivers answers := by
  obtain ⟨io,log,P,hrun,-,hleft,hsplit⟩ := run_new 0x1000000 hfuel (c.writes.map Prod.fst)
  obtain ⟨rfl,rfl⟩ := Prod.mk.inj (Except.ok.inj (h.ran.symm.trans hrun))
  have hflatten : Libhv.written (c.writes.map Prod.fst) = answers.flatten := by rw [written_eq_flatten,h.written]
  refine ⟨h.written,hsplit ▸ List.prefix_append _ _,fun hopen => ⟨P,hsplit,?_⟩,
    fun hall => (acceptedBytes_eq_written hall).trans hflatten,fun hcalm hfits => ?_⟩
  · exact hleft.resolve_left (by simp [hopen])
  · have hroom : ([] : Bytes).length + (Libhv.written (c.writes.map Prod.fst)).length ≤ UInt32.toNat 0x1000000 := by
      rw [hflatten,List.length_nil,Nat.zero_add]
      exact hfits
    obtain ⟨io',log',P',hrun',hwrites,-,hall⟩ :=
      (writes_new 0x1000000).run_calm rfl hfuel (List.forall_mem_map.mpr hcalm) hroom
    obtain ⟨rfl,rfl⟩ := Prod.mk.inj (Except.ok.inj (h.ran.symm.trans hrun'))
    rw [hflatten,List.nil_append] at hall
    exact ⟨P',hall,hwrites⟩

end WriteSide
end FDemo.MapServer
