import FDemo.MapServer.Network

/-! # The network is an atomic store

When each file name is uploaded over one connection, uploads that are under way
at the same time do not interrupt each other, so each of them takes effect when
it receives. The whole system is the atomic file store then, and each connection
gets the answers to its own messages in order.
-/
namespace FDemo.MapServer
open Packet Mealy Libhv Threads
variable {ι : Type*} [DecidableEq ι]

def filesIn (ms : List Message) : List File := ms.filterMap fileIn

/-- A request that the handler answers: it names a map, and its paths convert. -/
def Answerable (m : Message) : Prop :=
  m.type = .file → ∀ l, m.payload = .itemlist l → ∃ mapName names, l.items = mapName :: names ∧
    ∀ n ∈ names.map cString, ValidUtf8 (filePath mapName n)

/-- Messages that come through as they are, and every file name on one connection. -/
structure Scripts (pb : Protobuf) (versions : Bytes → List Version) (script : ι → List Message) : Prop where
  inverts : ∀ i, ∀ m ∈ script i, pb.Inverts m
  fits : ∀ i, ∀ m ∈ script i, Fits (pb.serializeToString m)
  answerable : ∀ i, ∀ m ∈ script i, Answerable m
  owned : ∀ k, ∃ i, (∀ j, j ≠ i → named k (filesIn (script j)) = []) ∧
    named k (filesIn (script i)) <+: Version.packets (versions k)

theorem answer_exception {pb : Protobuf} {r : Request} (hm : Answerable r.message) (a : AtomicStore) :
    (a.answer pb r).2 = none := by
  obtain ⟨⟨type,payload⟩,read,save⟩ := r
  by_cases hmaplist : type = .maplist
  · simp [AtomicStore.answer,hmaplist]
  by_cases hfile : type = .file
  · subst hfile
    cases payload with
    | itemlist l =>
      obtain ⟨mapName,names,hitems,hvalid⟩ := hm rfl l rfl
      obtain ⟨items⟩ := l
      obtain rfl : items = mapName :: names := hitems
      simp only [AtomicStore.answer,hmaplist,↓reduceIte,AtomicStore.download,if_pos hvalid]
    | file file => simp [AtomicStore.answer,hmaplist]
    | notSet => simp [AtomicStore.answer,hmaplist]
    | heartbeat => simp [AtomicStore.answer,hmaplist]
    | location => simp [AtomicStore.answer,hmaplist]
    | fileTransferStatus => simp [AtomicStore.answer,hmaplist]
  · simp [AtomicStore.answer,hmaplist,hfile]

/-! ### What the connections have uploaded -/

section Log
variable {pb : Protobuf} {versions : Bytes → List Version} {script : ι → List Message}

theorem messagesOf_concat (i : ι) (log : List (Handling ι)) (h : Handling ι) :
    messagesOf i (log ++ [h]) = messagesOf i log ++ if h.conn = i then [h.request.message] else [] := by
  by_cases hi : h.conn = i <;> simp [messagesOf,List.filter_append,hi]

theorem answersTo_concat (i : ι) (log : List (Handling ι)) (h : Handling ι) :
    answersTo i (log ++ [h]) = answersTo i log ++ if h.conn = i then h.sent else [] := by
  by_cases hi : h.conn = i <;> simp [answersTo,List.filter_append,hi]

theorem named_append (k : Bytes) (vs ws : List File) : named k (vs ++ ws) = named k vs ++ named k ws :=
  List.filter_append ..

theorem filesIn_append (ms ns : List Message) : filesIn (ms ++ ns) = filesIn ms ++ filesIn ns := List.filterMap_append ..

/-- Where one connection has all packets of a name, the log has them in its order. -/
theorem named_log (log : List (Handling ι)) {k : Bytes} {i : ι}
    (hothers : ∀ j, j ≠ i → named k (filesIn (messagesOf j log)) = []) :
    named k (uploadsOf (log.map Handling.request)) = named k (filesIn (messagesOf i log)) := by
  induction log using List.reverseRecOn with
  | nil => rfl
  | append_singleton log h ih =>
    have hbefore : ∀ j, j ≠ i → named k (filesIn (messagesOf j log)) = [] := by
      intro j hj
      have hall := hothers j hj
      rw [messagesOf_concat,filesIn_append,named_append] at hall
      exact (List.append_eq_nil_iff.mp hall).1
    have hlast : uploadsOf ((log ++ [h]).map Handling.request) =
        uploadsOf (log.map Handling.request) ++ filesIn [h.request.message] := by
      rw [List.map_append,List.map_cons,List.map_nil,uploadsOf_concat]
      cases hfile : fileIn h.request.message <;> simp [filesIn,hfile]
    rw [hlast,messagesOf_concat,filesIn_append,named_append,named_append,ih hbefore]
    by_cases hi : h.conn = i
    · rw [if_pos hi]
    · have hall := hothers h.conn hi
      rw [messagesOf_concat,if_pos rfl,filesIn_append,named_append] at hall
      rw [if_neg hi,(List.append_eq_nil_iff.mp hall).2]
      rfl

theorem uploads_log (hscripts : Scripts pb versions script) {log : List (Handling ι)}
    (h : ∀ i, messagesOf i log <+: script i) : Uploads versions (uploadsOf (log.map Handling.request)) := by
  have hmono : ∀ i k, named k (filesIn (messagesOf i log)) <+: named k (filesIn (script i)) :=
    fun i k => ((h i).filterMap fileIn).filter _
  intro k
  obtain ⟨i,hothers,hversions⟩ := hscripts.owned k
  rw [named_log log fun j hj => List.prefix_nil.mp (hothers j hj ▸ hmono j k)]
  exact (hmono i k).trans hversions

/-- Packets of one name come from one connection. -/
theorem Scripts.same_conn (hscripts : Scripts pb versions script) {i j : ι} {v w : File} (hv : v ∈ filesIn (script i))
    (hw : w ∈ filesIn (script j)) (hname : v.fileName = w.fileName) : i = j := by
  obtain ⟨l,hothers,-⟩ := hscripts.owned w.fileName
  have howner : ∀ m x, x ∈ filesIn (script m) → x.fileName = w.fileName → m = l := by
    intro m x hx hk
    by_contra hml
    have hmem : x ∈ named w.fileName (filesIn (script m)) := List.mem_filter.mpr ⟨hx,by simpa using hk⟩
    rw [hothers m hml] at hmem
    exact absurd hmem List.not_mem_nil
  exact (howner i v hv hname).trans (howner j w hw rfl).symm

end Log

/-! ### The system -/

section System
variable {pb : Protobuf} {versions : Bytes → List Version} {script : ι → List Message} {d : Disk} {fuel : ℕ}

/-- A connection whose handler has taken some messages and given some answers. -/
structure Connection.Serving (pb : Protobuf) (fuel : ℕ) (script : List Message) (c : Connection) (taken : List Message)
    (answers : List Bytes) : Prop where
  standing : ∃ waiting unread r, Standing pb script c taken waiting unread r
  writes : c.Wrote fuel answers

/-- What holds after any part of a run. -/
structure Network.Inv (pb : Protobuf) (d : Disk) (script : ι → List Message) (fuel : ℕ) (net : Network ι)
    (log : List (Handling ι)) : Prop where
  conns : ∀ i,
    (net.conns i).Serving pb fuel (script i) (messagesOf i log ++ (net.calls i).started) (answersTo i log)
  simulates : Simulates net.toConfig (final (respond pb) (.fresh d) (log.map Handling.request))
  clean : ∀ i, (net.calls i).Uninterrupted net.shared
  uploads : ∀ i e, (net.calls i).upload = some e → e.1 ∈ filesIn (script i) ∧ e.2.Works
  saves : SavesWork (log.map Handling.request)
  answers : log.map Handling.answered = trace (respond pb) (.fresh d) (log.map Handling.request)

variable {net : Network ι} {log : List (Handling ι)} {i : ι}

theorem Network.Inv.messages (h : net.Inv pb d script fuel log) (i : ι) : messagesOf i log <+: script i := by
  obtain ⟨waiting,unread,r,hstanding⟩ := (h.conns i).standing
  rw [hstanding.split,List.append_assoc]
  exact List.prefix_append _ _

/-- The server answers the next message as the store does, and does not throw. -/
theorem Network.Inv.next (hscripts : Scripts pb versions script) (h : net.Inv pb d script fuel log) {x : Handling ι}
    (htaken : messagesOf x.conn log ++ [x.request.message] <+: script x.conn) (hsave : x.request.save.Works) :
    ∃ a : AtomicStore, net.shared.disk.files = a.store ∧
      Uploads versions (uploadsOf ((log ++ [x]).map Handling.request)) ∧
      SavesWork ((log ++ [x]).map Handling.request) ∧
      (respond pb (final (respond pb) (.fresh d) (log.map Handling.request)) x.request).2 = a.answer pb x.request ∧
      (a.answer pb x.request).2 = none := by
  have hmessages : ∀ j, messagesOf j (log ++ [x]) <+: script j := by
    intro j
    rw [messagesOf_concat]
    by_cases hj : x.conn = j
    · subst hj
      rwa [if_pos rfl]
    · rw [if_neg hj,List.append_nil]
      exact h.messages j
  have huploads := uploads_log hscripts hmessages
  have hsaves : SavesWork ((log ++ [x]).map Handling.request) := by
    intro r hr
    rw [List.map_append] at hr
    rcases List.mem_append.mp hr with hr | hr
    · exact h.saves r hr
    · rw [List.mem_singleton.mp hr]
      exact hsave
  have hbefore : Uploads versions (uploadsOf (log.map Handling.request)) := uploads_log hscripts h.messages
  have hx : x.request.message ∈ script x.conn :=
    htaken.subset (List.mem_append_right _ (List.mem_singleton_self _))
  refine ⟨final (AtomicStore.step pb versions) (.start d) (log.map Handling.request),?_,huploads,hsaves,?_,
    answer_exception (hscripts.answerable x.conn _ hx) _⟩
  · rw [h.simulates.disk]
    exact files_run pb d h.saves hbefore
  · rw [List.map_append] at huploads hsaves
    exact answer_run pb d hsaves huploads

omit [DecidableEq ι] in
theorem answered_concat {x : Handling ι}
    (h : log.map Handling.answered = trace (respond pb) (.fresh d) (log.map Handling.request))
    (hx : (respond pb (final (respond pb) (.fresh d) (log.map Handling.request)) x.request).2 = (x.sent,none)) :
    (log ++ [x]).map Handling.answered = trace (respond pb) (.fresh d) ((log ++ [x]).map Handling.request) := by
  rw [List.map_append,List.map_append,trace_append,h]
  simp only [List.map_cons,List.map_nil,trace_cons,trace_nil,hx]
  rfl

/-- Something happens to one connection only, and nothing is handled. -/
theorem Network.Inv.withConn (h : net.Inv pb d script fuel log) {c : Connection}
    (hc : c.Serving pb fuel (script i) (messagesOf i log ++ (net.calls i).started) (answersTo i log)) :
    Network.Inv pb d script fuel { net with conns := Function.update net.conns i c } log := by
  have hconns := (Function.forall_update_iff net.conns fun j c =>
    c.Serving pb fuel (script j) (messagesOf j log ++ (net.calls j).started) (answersTo j log)).mpr
      ⟨hc,fun j _ => h.conns j⟩
  exact ⟨hconns,h.simulates,h.clean,h.uploads,h.saves,h.answers⟩

theorem Network.Inv.readable (hscripts : Scripts pb versions script) (hfuel : UInt32.size ≤ fuel)
    (h : net.Inv pb d script fuel log) (i : ι) (count : ℕ) :
    ∃ net', net.step pb fuel (.readable i count) = .ok (net',none) ∧ net'.Inv pb d script fuel log := by
  obtain ⟨waiting,unread,r,hstanding⟩ := (h.conns i).standing
  by_cases hbusy : (net.conns i).out.closed ∨ (net.conns i).pending ≠ [] ∨ (net.calls i).upload ≠ none
  · exact ⟨net,if_pos hbusy,h⟩
  have hidle : (net.conns i).pending = [] := by
    by_contra hpending
    exact hbusy (Or.inr (Or.inl hpending))
  have hlong : defaultPackageMaxLength.toNat < fuel := lt_of_lt_of_le (by decide) hfuel
  obtain ⟨pending,io,queue,waiting',unread',r',hread,hstanding'⟩ :=
    hstanding.readable (hscripts.fits i) hidle hlong count
  have hopened : io.closed = false := hstanding'.ready.opened
  have hstays : io.closing = false := hstanding'.ready.stays
  refine ⟨{ net with conns := Function.update net.conns i { net.conns i with io, queue, pending } },?_,
    h.withConn ⟨⟨_,_,_,hstanding'⟩,(h.conns i).writes.ran,(h.conns i).writes.written⟩⟩
  rw [Network.step,if_neg hbusy]
  simp only [hread,hopened,hstays,Bool.false_eq_true,or_self,↓reduceIte]

theorem Network.Inv.socket (hfuel : UInt32.size ≤ fuel) (h : net.Inv pb d script fuel log) (i : ι) {e : WriteEvent}
    (he : buffersWritten [e] = []) :
    ∃ net', net.step pb fuel (.socket i e) = .ok (net',none) ∧ net'.Inv pb d script fuel log := by
  obtain ⟨waiting,unread,r,hstanding⟩ := (h.conns i).standing
  obtain ⟨out,writes,hhappen,hwrote⟩ := (h.conns i).writes.happen hfuel [e]
  rw [he,List.append_nil] at hwrote
  refine ⟨{ net with conns := Function.update net.conns i { net.conns i with out, writes } },?_,
    h.withConn ⟨⟨_,_,_,hstanding.withWrites out writes⟩,hwrote⟩⟩
  rw [Network.step]
  simp only [hhappen]

theorem fileIn_eq_some {m : Message} {file : File} (h : fileIn m = some file) : m = fileMessage file := by
  obtain ⟨type,payload⟩ := m
  by_cases htype : type = .file
  · subst htype
    cases payload with
    | file f => exact congrArg fileMessage (Option.some.inj h)
    | _ => exact absurd h (Option.some_ne_none file).symm
  · rw [fileIn,if_neg htype] at h
    exact absurd h (Option.some_ne_none file).symm

theorem started_of_upload_none {call : UploadCall} (h : call.upload = none) : call.started = [] := by
  cases call with
  | called e => exact absurd h (Option.some_ne_none e)
  | infoSet e => exact absurd h (Option.some_ne_none e)
  | received e r => rfl
  | returned r => rfl

theorem pending_of_upload_none {call : UploadCall} (h : call.upload = none) : call.pending = none := by
  cases hpending : call.pending with
  | none => rfl
  | some k =>
    obtain ⟨e,he,-⟩ := upload_of_pending hpending
    exact absurd (h.symm.trans he) (Option.some_ne_none e).symm

/-- The upload branch begins: nothing is changed yet. -/
theorem Network.Inv.begin (h : net.Inv pb d script fuel log) (hfree : (net.calls i).upload = none)
    {waiting unread : List Message} {r : Bytes} {pending : List Bytes} {file : File} {save : SaveOps} (hsave : save.Works)
    (hstanding : Standing pb (script i) { net.conns i with pending } (messagesOf i log ++ [fileMessage file]) waiting
      unread r) :
    Network.Inv pb d script fuel { net with
      calls := Function.update net.calls i (.called (file,save)),
      conns := Function.update net.conns i { net.conns i with pending } } log := by
  have hmem : file ∈ filesIn (script i) := by
    rw [hstanding.split]
    simp [filesIn,fileIn,fileMessage]
  have hcalls : ∀ p : ι → UploadCall → Prop, p i (.called (file,save)) → (∀ j, p j (net.calls j)) →
      ∀ j, p j (Function.update net.calls i (.called (file,save)) j) :=
    fun p hi hall => (Function.forall_update_iff net.calls p).mpr ⟨hi,fun j _ => hall j⟩
  have hconns : ∀ j, (Function.update net.conns i { net.conns i with pending } j).Serving pb fuel (script j)
      (messagesOf j log ++ (Function.update net.calls i (.called (file,save)) j).started) (answersTo j log) := by
    intro j
    by_cases hj : j = i
    · subst hj
      rw [Function.update_self,Function.update_self]
      exact ⟨⟨_,_,_,hstanding⟩,(h.conns j).writes.ran,(h.conns j).writes.written⟩
    · rw [Function.update_of_ne hj,Function.update_of_ne hj]
      exact h.conns j
  refine ⟨hconns,h.simulates.of_pending rfl ?_,?_,?_,h.saves,h.answers⟩
  · exact hcalls (fun j call => call.pending = (net.calls j).pending) (pending_of_upload_none hfree).symm fun _ => rfl
  · exact hcalls (fun _ call => call.Uninterrupted net.shared) trivial h.clean
  · refine hcalls (fun j call => ∀ e, call.upload = some e → e.1 ∈ filesIn (script j) ∧ e.2.Works) (fun e he => ?_)
      h.uploads
    obtain rfl := Option.some.inj he
    exact ⟨hmem,hsave⟩

/-- A message other than an upload is answered as the store does, and the server is as it was. -/
theorem Network.Inv.answered (hscripts : Scripts pb versions script) (h : net.Inv pb d script fuel log)
    {x : Handling ι} (htaken : messagesOf x.conn log ++ [x.request.message] <+: script x.conn)
    (hupload : fileIn x.request.message = none) (hsave : x.request.save.Works)
    (hsent : x.sent = (respond pb net.shared x.request).2.1) :
    respond pb net.shared x.request = (net.shared,x.sent,none) ∧ SavesWork ((log ++ [x]).map Handling.request) ∧
      final (respond pb) (.fresh d) ((log ++ [x]).map Handling.request) =
        final (respond pb) (.fresh d) (log.map Handling.request) ∧
      (log ++ [x]).map Handling.answered = trace (respond pb) (.fresh d) ((log ++ [x]).map Handling.request) := by
  have hserver : ∀ s, (respond pb s x.request).1 = s := by
    intro s
    rw [respond_server pb s hsave,hupload]
  obtain ⟨a,hfiles,-,hsaves,hanswer,hnone⟩ := h.next hscripts htaken hsave
  have hnow : (respond pb net.shared x.request).2 = a.answer pb x.request :=
    dispatch_answer pb hfiles _ hsave fun file hfile => absurd (hupload.symm.trans hfile) (Option.some_ne_none file).symm
  have hsame : a.answer pb x.request = (x.sent,none) := Prod.ext (by rw [hsent,hnow]) hnone
  refine ⟨Prod.ext (hserver _) (hnow.trans hsame),hsaves,?_,answered_concat h.answers (hanswer.trans hsame)⟩
  rw [List.map_append,final_append]
  exact hserver _

/-- One connection is a message and an answer further, and the others are where they were. -/
theorem Network.Inv.serving_concat (h : net.Inv pb d script fuel log) {x : Handling ι} {conns : ι → Connection}
    {calls : ι → UploadCall} (hothers : ∀ j, j ≠ x.conn → conns j = net.conns j ∧ calls j = net.calls j)
    (hx : (conns x.conn).Serving pb fuel (script x.conn)
      (messagesOf x.conn log ++ [x.request.message] ++ (calls x.conn).started) (answersTo x.conn log ++ x.sent)) (j : ι) :
    (conns j).Serving pb fuel (script j) (messagesOf j (log ++ [x]) ++ (calls j).started)
      (answersTo j (log ++ [x])) := by
  rw [messagesOf_concat,answersTo_concat]
  by_cases hj : x.conn = j
  · subst hj
    rwa [if_pos rfl,if_pos rfl]
  · obtain ⟨hconns,hcalls⟩ := hothers j (Ne.symm hj)
    rw [if_neg hj,if_neg hj,List.append_nil,List.append_nil,hconns,hcalls]
    exact h.conns j

/-- The frames of the answer go through the write queue. -/
theorem Network.Inv.answer (hscripts : Scripts pb versions script) (hfuel : UInt32.size ≤ fuel)
    (h : net.Inv pb d script fuel log) (hfree : (net.calls i).upload = none) {m : Message} (hupload : fileIn m = none)
    {waiting unread : List Message} {r : Bytes} {pending : List Bytes}
    (hstanding : Standing pb (script i) { net.conns i with pending } (messagesOf i log ++ [m]) waiting unread r)
    (read : ℕ → ReadOps) {save : SaveOps} (hsave : save.Works) (send : ℕ → Send) : ∃ c,
      (dispatch pb net.shared read save m).exception = none ∧ (dispatch pb net.shared read save m).server = net.shared ∧
      { net.conns i with pending }.happen fuel (channelWrites (dispatch pb net.shared read save m).sent send) = .ok c ∧
      Network.Inv pb d script fuel { net with conns := Function.update net.conns i c }
        (log ++ [⟨i,{ message := m, read, save },(dispatch pb net.shared read save m).sent⟩]) := by
  have htaken : messagesOf i log ++ [m] <+: script i := by
    rw [hstanding.split]
    exact List.prefix_append _ _
  obtain ⟨hrespond,hsaves,hfinal,hanswers⟩ := h.answered hscripts
    (x := ⟨i,{ message := m, read, save },(dispatch pb net.shared read save m).sent⟩) htaken hupload hsave rfl
  obtain ⟨hserver,hanswer⟩ := Prod.mk.inj hrespond
  obtain ⟨out,writes,hhappen,hwrote⟩ := Connection.Wrote.happen
    (⟨(h.conns i).writes.ran,(h.conns i).writes.written⟩ : Connection.Wrote fuel { net.conns i with pending } _) hfuel
    (channelWrites (dispatch pb net.shared read save m).sent send)
  rw [buffersWritten_channelWrites] at hwrote
  have hserving : (Function.update net.conns i { net.conns i with pending, out, writes } i).Serving pb fuel (script i)
      (messagesOf i log ++ [m] ++ (net.calls i).started)
      (answersTo i log ++ (dispatch pb net.shared read save m).sent) := by
    rw [Function.update_self,started_of_upload_none hfree,List.append_nil]
    exact ⟨⟨_,_,_,hstanding.withWrites out writes⟩,hwrote⟩
  exact ⟨_,(Prod.mk.inj hanswer).2,hserver,hhappen,
    h.serving_concat (fun j hj => ⟨Function.update_of_ne hj _ _,rfl⟩) hserving,
    hfinal ▸ h.simulates,h.clean,h.uploads,hsaves,hanswers⟩

/-- The handler is called with the next package. -/
theorem Network.Inv.handle (hscripts : Scripts pb versions script) (hfuel : UInt32.size ≤ fuel)
    (h : net.Inv pb d script fuel log) (i : ι) (read : ℕ → ReadOps) {save : SaveOps} (hsave : save.Works)
    (send : ℕ → Send) : ∃ net' done, net.step pb fuel (.handle i read save send) = .ok (net',done) ∧
      net'.Inv pb d script fuel (log ++ done.toList) := by
  have hstay := h
  rw [← List.append_nil log] at hstay
  cases hfree : (net.calls i).upload with
  | some e => exact ⟨net,none,by simp only [Network.step,hfree],hstay⟩
  | none =>
    cases hpending : (net.conns i).pending with
    | nil => exact ⟨net,none,by simp only [Network.step,hfree,hpending],hstay⟩
    | cons buf pending =>
      obtain ⟨waiting,unread,r,hstanding⟩ := (h.conns i).standing
      rw [started_of_upload_none hfree,List.append_nil] at hstanding
      obtain ⟨m,waiting',hm,rfl,hstanding'⟩ := hstanding.handle hpending
      have hinv := hscripts.inverts i m hm
      cases hupload : fileIn m with
      | some file =>
        obtain rfl := fileIn_eq_some hupload
        exact ⟨_,none,by simp only [Network.step,hfree,hpending,uploadIn_messageFrame hinv,hupload],
          (List.append_nil log).symm ▸ h.begin hfree hsave hstanding'⟩
      | none =>
        obtain ⟨c,hnone,hkept,hhappen,hlogged⟩ := h.answer hscripts hfuel hfree hupload hstanding' read hsave send
        refine ⟨_,some _,?_,hlogged⟩
        simp only [Network.step,hfree,hpending,uploadIn_messageFrame hinv,hupload,tcpOnMessage_messageFrame hinv,
          hnone,hkept,hhappen,parse_messageFrame hinv]

/-! An upload goes on. -/

theorem Network.Inv.turn_calls (hscripts : Scripts pb versions script) (h : net.Inv pb d script fuel log) (i : ι) :
    (∀ j, ((turn uploadStep net.toConfig i).1.calls j).Uninterrupted (turn uploadStep net.toConfig i).1.shared) ∧
    ∀ j e, ((turn uploadStep net.toConfig i).1.calls j).upload = some e → e.1 ∈ filesIn (script j) ∧ e.2.Works := by
  refine ⟨uninterrupted_turn h.simulates i h.clean fun j hj e e' he he' hkey => ?_,fun j e he => ?_⟩
  · exact hj (hscripts.same_conn (h.uploads j e' he').1 (h.uploads i e he).1 hkey.symm)
  · by_cases hj : j = i
    · subst hj
      rw [turn_calls_self] at he
      exact h.uploads j e (upload_uploadStep he)
    · rw [turn_calls_ne _ _ _ hj] at he
      exact h.uploads j e he

/-- A step of an upload that does not receive. -/
theorem Network.Inv.quiet (hscripts : Scripts pb versions script) (h : net.Inv pb d script fuel log)
    (hstarted : (uploadStep net.shared (net.calls i)).2.1.started = (net.calls i).started)
    (hsimulates : Simulates (turn uploadStep net.toConfig i).1
      (final (respond pb) (.fresh d) (log.map Handling.request))) :
    Network.Inv pb d script fuel { net with toConfig := (turn uploadStep net.toConfig i).1 } log := by
  obtain ⟨hclean,huploads⟩ := h.turn_calls hscripts i
  refine ⟨fun j => ?_,hsimulates,hclean,huploads,h.saves,h.answers⟩
  have hsame : ((turn uploadStep net.toConfig i).1.calls j).started = (net.calls j).started := by
    by_cases hj : j = i
    · subst hj
      rwa [turn_calls_self]
    · rw [turn_calls_ne _ _ _ hj]
  have hconn := h.conns j
  rwa [← hsame] at hconn

/-- An upload takes effect. -/
theorem Network.Inv.receive (hscripts : Scripts pb versions script) (h : net.Inv pb d script fuel log) {e : Upload}
    (hcall : net.calls i = .infoSet e) : ∃ r, r ≠ .threw ∧ (turn uploadStep net.toConfig i).2 = some r ∧
      Network.Inv pb d script fuel { net with toConfig := (turn uploadStep net.toConfig i).1 }
        (log ++ [⟨i,{ message := fileMessage e.1, save := e.2 },[]⟩]) := by
  obtain ⟨hclean,huploads⟩ := h.turn_calls hscripts i
  obtain ⟨-,hworks⟩ := h.uploads i e (by rw [hcall]; rfl)
  obtain ⟨hsimulates,hresult⟩ := simulates_receive h.simulates hcall (hcall ▸ h.clean i)
  obtain ⟨file,save⟩ := e
  obtain rfl : save = {} := hworks.eq
  have hconn := h.conns i
  rw [hcall] at hconn
  have hserving : (net.conns i).Serving pb fuel (script i)
      (messagesOf i log ++ [fileMessage file] ++ ((turn uploadStep net.toConfig i).1.calls i).started)
      (answersTo i log ++ []) := by
    rw [turn_calls_self,hcall,List.append_assoc,List.append_nil]
    exact hconn
  obtain ⟨waiting,unread,r,hstanding⟩ := hconn.standing
  have htaken : messagesOf i log ++ [fileMessage file] <+: script i := by
    rw [hstanding.split]
    exact List.prefix_append _ _
  obtain ⟨a,-,hnext,hsaves,hanswer,-⟩ := h.next hscripts (x := ⟨i,{ message := fileMessage file, save := {} },[]⟩)
    htaken hworks
  refine ⟨_,?_,hresult,h.serving_concat (fun j hj => ⟨rfl,turn_calls_ne _ _ _ hj⟩) hserving,?_,hclean,huploads,hsaves,
    answered_concat h.answers hanswer⟩
  · rw [List.map_append,List.map_cons,List.map_nil,uploadsOf_concat] at hnext
    rw [final_respond pb d h.saves]
    exact upload_ne_threw d hnext
  · rw [List.map_append,final_append]
    exact hsimulates

theorem Network.Inv.proceed (hscripts : Scripts pb versions script) (h : net.Inv pb d script fuel log) (i : ι) :
    ∃ net' done, net.step pb fuel (.proceed i) = .ok (net',done) ∧ net'.Inv pb d script fuel (log ++ done.toList) := by
  have hquiet : (turn uploadStep net.toConfig i).2 = none → Network.Inv pb d script fuel
      { net with toConfig := (turn uploadStep net.toConfig i).1 } log →
      ∃ net' done, net.step pb fuel (.proceed i) = .ok (net',done) ∧ net'.Inv pb d script fuel (log ++ done.toList) := by
    intro hresult hinv
    exact ⟨_,none,by simp only [Network.step,hresult],(List.append_nil log).symm ▸ hinv⟩
  cases hcall : net.calls i with
  | called e =>
    refine hquiet (by rw [turn_result,hcall]; rfl) (h.quiet hscripts ?_ (simulates_setFileInfo h.simulates hcall))
    rw [hcall]
    rfl
  | infoSet e =>
    obtain ⟨r,hthrew,hresult,hinv⟩ := h.receive hscripts hcall
    refine ⟨_,some ⟨i,{ message := fileMessage e.1, save := e.2 },[]⟩,?_,hinv⟩
    simp only [Network.step,hresult,hcall]
    cases r with
    | threw => exact absurd rfl hthrew
    | _ => rfl
  | received e r =>
    refine hquiet (by rw [turn_result,hcall]; rfl) (h.quiet hscripts ?_ (simulates_erase h.simulates hcall ?_))
    · rw [hcall]
      rfl
    · exact hcall ▸ h.clean i
  | returned r =>
    refine hquiet (by rw [turn_result,hcall]; rfl) (h.quiet hscripts ?_ ?_)
    · rw [hcall]
      rfl
    · rw [turn_returned hcall]
      exact h.simulates

/-- The save that the event may start succeeds, and nobody but the handler writes. -/
def NetEvent.Plain : NetEvent ι → Prop
  | .readable _ _ => True
  | .handle _ _ save _ => save.Works
  | .proceed _ => True
  | .socket _ e => buffersWritten [e] = []

theorem Network.Inv.step (hscripts : Scripts pb versions script) (hfuel : UInt32.size ≤ fuel)
    (h : net.Inv pb d script fuel log) {e : NetEvent ι} (he : e.Plain) :
    ∃ net' done, net.step pb fuel e = .ok (net',done) ∧ net'.Inv pb d script fuel (log ++ done.toList) := by
  cases e with
  | readable i count =>
    obtain ⟨net',hstep,hinv⟩ := h.readable hscripts hfuel i count
    exact ⟨net',none,hstep,(List.append_nil log).symm ▸ hinv⟩
  | handle i read save send => exact h.handle hscripts hfuel i read he send
  | proceed i => exact h.proceed hscripts i
  | socket i e =>
    obtain ⟨net',hstep,hinv⟩ := h.socket hfuel i he
    exact ⟨net',none,hstep,(List.append_nil log).symm ▸ hinv⟩

theorem Network.Inv.run (hscripts : Scripts pb versions script) (hfuel : UInt32.size ≤ fuel)
    (h : net.Inv pb d script fuel log) {es : List (NetEvent ι)} (hes : ∀ e ∈ es, e.Plain) :
    ∃ net' log', net.run pb fuel es = .ok (net',log') ∧ net'.Inv pb d script fuel (log ++ log') := by
  induction es generalizing net log with
  | nil => exact ⟨net,[],rfl,by simpa using h⟩
  | cons e es ih =>
    obtain ⟨net₁,done,hstep,h₁⟩ := h.step hscripts hfuel (hes e List.mem_cons_self)
    obtain ⟨net₂,log₂,hrun,h₂⟩ := ih h₁ fun e' he' => hes e' (List.mem_cons_of_mem e he')
    refine ⟨net₂,done.toList ++ log₂,?_,by rwa [← List.append_assoc]⟩
    simp only [Network.run,hstep,hrun]
    rfl

theorem Network.Inv.start {io : ReadIo} (hready : Ready streamSetting io []) :
    (Network.start pb io d script).Inv pb d script fuel [] where
  conns i := ⟨⟨[],script i,[],rfl,rfl,hready,framing_within.peel_nil,rfl⟩,rfl,rfl⟩
  simulates := simulates_fresh d _
  clean _ := trivial
  uploads _ e he := absurd he (Option.some_ne_none e).symm
  saves _ hr := absurd hr List.not_mem_nil
  answers := rfl

end System

/-- However the sockets give and take the bytes, and whatever order the steps of the handlers come in: nothing
stops, no read side wants its connection closed, every peer's messages are handled once and in order, every
answer is the answer of the atomic store at that point and goes to its peer in order, and the files on disk
are those of the store. -/
theorem network_refines_store (pb : Protobuf) (versions : Bytes → List Version) (script : ι → List Message)
    (hscripts : Scripts pb versions script) (d : Disk) (fuel : ℕ) (hfuel : UInt32.size ≤ fuel)
    (es : List (NetEvent ι)) (hes : ∀ e ∈ es, e.Plain) : ∃ io net log,
      ReadIo.hioSetUnpack streamSetting = .ok (streamSetting,io) ∧
      (Network.start pb io d script).run pb fuel es = .ok (net,log) ∧
      (∀ i, ∃ waiting unread, script i = messagesOf i log ++ ((net.calls i).started ++ (waiting ++ unread)) ∧
        (net.conns i).pending = waiting.map (messageFrame pb) ∧ ((net.conns i).queue = [] → unread = []) ∧
        (net.conns i).io.closed = false) ∧
      (∀ i, (net.conns i).Delivers (answersTo i log)) ∧
      log.map Handling.answered = trace (AtomicStore.step pb versions) (.start d) (log.map Handling.request) ∧
      net.shared.disk.files =
        (final (AtomicStore.step pb versions) (.start d) (log.map Handling.request)).store := by
  obtain ⟨io,hset,hready⟩ :=
    hioSetUnpack_ready (show streamSetting.withDefault.Served from streamSetting_served) (by decide)
  have hstart : (Network.start pb io d script).Inv pb d script fuel [] := .start hready
  obtain ⟨net,log,hrun,h⟩ := hstart.run hscripts hfuel hes
  rw [List.nil_append] at h
  have huploads := uploads_log hscripts h.messages
  refine ⟨io,net,log,hset,hrun,fun i => ?_,fun i => (h.conns i).writes.delivers hfuel,
    h.answers.trans (trace_run pb d h.saves huploads),by rw [h.simulates.disk,files_run pb d h.saves huploads]⟩
  obtain ⟨waiting,unread,r,hstanding⟩ := (h.conns i).standing
  exact ⟨waiting,unread,by rw [hstanding.split,List.append_assoc],hstanding.pending,hstanding.done (hscripts.fits i),
    hstanding.ready.opened⟩

/-- One peer uploads a file of two packets, another one asks for it. -/
def uploadAndAsk (uploads : Bool) : List Message :=
  if uploads then secondUpload.packets.map fileMessage else [downloadRequest (utf8 "m") [utf8 "f"]]

theorem filesIn_fileMessage (ws : List File) : filesIn (ws.map fileMessage) = ws := by
  rw [filesIn,List.filterMap_map]
  exact List.filterMap_some ..

theorem uploadAndAsk_scripts : Scripts packetCodec (onlyVersions secondUpload) uploadAndAsk where
  inverts := by decide +kernel
  fits := by
    have hlen : ∀ i, ∀ m ∈ uploadAndAsk i,
        (packetCodec.serializeToString m).length ≤ defaultPackageMaxLength.toNat - headBodyLength := by decide +kernel
    exact hlen
  answerable
    | true => fun m hm _ l hl => by
      obtain ⟨w,-,rfl⟩ := List.mem_map.mp hm
      exact Payload.noConfusion hl
    | false => fun m hm _ l hl => by
      obtain rfl := List.mem_singleton.mp hm
      obtain rfl := Payload.itemlist.inj hl
      exact ⟨_,_,rfl,by decide⟩
  owned k := by
    refine ⟨true,fun j hj => ?_,?_⟩
    · obtain rfl : j = false := by simpa using hj
      rfl
    · have hfiles : filesIn (uploadAndAsk true) = secondUpload.packets := filesIn_fileMessage _
      rw [hfiles]
      exact uploads_onlyVersions secondUpload k

/-- The request is answered between two steps of an upload, and its answer is sent in parts. -/
def askedBetween : List (NetEvent Bool) :=
  [.readable true 20,.readable false 100,.readable true 100,.handle true (fun _ => {}) {} fun _ => .again,.proceed true,
    .handle false (fun _ => {}) {} fun _ => .wrote 9,.proceed true,.socket false (.writable [.wrote 100]),
    .proceed true,.handle true (fun _ => {}) {} fun _ => .again]

theorem network_refines_store_askedBetween : ∃ io net log,
    ReadIo.hioSetUnpack streamSetting = .ok (streamSetting,io) ∧
    (Network.start packetCodec io .blank uploadAndAsk).run packetCodec UInt32.size askedBetween = .ok (net,log) ∧
    (∀ i, ∃ waiting unread, uploadAndAsk i = messagesOf i log ++ ((net.calls i).started ++ (waiting ++ unread)) ∧
      (net.conns i).pending = waiting.map (messageFrame packetCodec) ∧ ((net.conns i).queue = [] → unread = []) ∧
      (net.conns i).io.closed = false) ∧
    (∀ i, (net.conns i).Delivers (answersTo i log)) ∧
    log.map Handling.answered = trace (AtomicStore.step packetCodec (onlyVersions secondUpload)) (.start .blank)
      (log.map Handling.request) ∧
    net.shared.disk.files = (final (AtomicStore.step packetCodec (onlyVersions secondUpload)) (.start .blank)
      (log.map Handling.request)).store :=
  network_refines_store packetCodec (onlyVersions secondUpload) uploadAndAsk uploadAndAsk_scripts .blank UInt32.size
    le_rfl askedBetween (by simp [askedBetween,NetEvent.Plain,works_default,buffersWritten])

end FDemo.MapServer
