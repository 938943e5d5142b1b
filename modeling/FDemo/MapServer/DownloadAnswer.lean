import FDemo.MapServer.RoundTrip

/-! # The answer to a download request

The frames of a request are the frames of its files in the order of the request,
and each file's part depends on nothing but what is read of that file. A file is
cut into as few packets as the packet size allows; their numbers and their total
are 32-bit integers.
-/
namespace FDemo.MapServer
open Packet

theorem length_chunksOf (content : Bytes) :
    (chunksOf content).length = (content.length + maxPacketSize - 1) / maxPacketSize := by
  have hupper : maxPacketSize * (chunksOf content).length < content.length - 0 + maxPacketSize :=
    length_chunkLoop content content.length 0
  have hlower : content.length ≤ (chunksOf content).length * maxPacketSize := by
    have hbound : ∀ l : List Bytes, (∀ chunk ∈ l, chunk.length ≤ maxPacketSize) →
        l.flatten.length ≤ l.length * maxPacketSize := by
      intro l
      induction l with
      | nil => simp
      | cons chunk l ih =>
        intro h
        obtain ⟨hchunk,hrest⟩ := List.forall_mem_cons.mp h
        have := ih hrest
        simp only [List.flatten_cons,List.length_append,List.length_cons,Nat.add_mul]
        omega
    have := hbound (chunksOf content) (fun _ => length_le_of_mem_chunksOf)
    rwa [flatten_chunksOf] at this
  unfold maxPacketSize at *
  omega

theorem ne_nil_of_mem_chunksOf {content chunk : Bytes} (h : chunk ∈ chunksOf content) : chunk ≠ [] := by
  have hloop : ∀ rounds offset, chunk ∈ chunkLoop content rounds offset → chunk ≠ [] := by
    intro rounds
    induction rounds with
    | zero => simp [chunkLoop]
    | succ rounds ih =>
      intro offset hmem
      unfold chunkLoop at hmem
      split at hmem
      · rename_i hlt
        rcases List.mem_cons.mp hmem with rfl | hmem
        · apply List.ne_nil_of_length_pos
          rw [List.length_take,List.length_drop]
          unfold maxPacketSize
          omega
        · exact ih _ hmem
      · simp at hmem
  exact hloop _ _ h

/-- The packets of one file, where `value` tells how a number or a total reads in its field. -/
structure FilePackets (value : ℕ → ℤ) (mapName fileName content : Bytes) (files : List File) : Prop where
  names : ∀ f ∈ files, f.mapName = mapName ∧ f.fileName = fileName
  count : files.length = if content = [] then 1 else (content.length + maxPacketSize - 1) / maxPacketSize
  numbers : content ≠ [] → ∀ i f, files[i]? = some f →
    f.filePacketNum.toInt = value i ∧ f.filePacketTotal.toInt = value files.length
  sizes : content ≠ [] → ∀ f ∈ files, 1 ≤ f.fileContent.length ∧ f.fileContent.length ≤ maxPacketSize
  content : (files.map File.fileContent).flatten = content

def downloadRequest (mapName : Bytes) (names : List Bytes) : Message :=
  { type := .file, payload := .itemlist { items := mapName :: names } }

def packetFrame (pb : Protobuf) (file : File) : Bytes := toBigEndianByteStream (pb.serializeToString (fileMessage file))

/-- The request is answered file by file: with nothing for a file that cannot be read, else with its packets. -/
structure DownloadAnswered (value : ℕ → ℤ) (pb : Protobuf) (s : Server) (read : ℕ → ReadOps) (save : SaveOps)
    (mapName : Bytes) (names : List Bytes) : Prop where
  sent : (dispatch pb s read save (downloadRequest mapName names)).sent = (names.zipIdx.map fun x =>
    (readFile s.disk (read x.2) (filePath mapName x.1)).elim [] fun content =>
      (splitFiles mapName x.1 content).map (packetFrame pb)).flatten
  files : ∀ i n content, names[i]? = some n → readFile s.disk (read i) (filePath mapName n) = some content →
    FilePackets value mapName n content (splitFiles mapName n content)
  exception : (dispatch pb s read save (downloadRequest mapName names)).exception = none
  server : (dispatch pb s read save (downloadRequest mapName names)).server = s

/-- How `set_file_packet_num(i)` reads back. -/
def asInt32 (n : ℕ) : ℤ := (Int32.ofNat n).toInt

theorem asInt32_of_lt {n : ℕ} (h : n < 2 ^ 31) : asInt32 n = n := Int32.toInt_ofNat_of_lt h

theorem filePackets_splitFiles (mapName fileName content : Bytes) :
    FilePackets asInt32 mapName fileName content (splitFiles mapName fileName content) := by
  by_cases hnil : content = []
  · subst hnil
    rw [splitFiles_nil]
    exact ⟨by simp,rfl,fun h => absurd rfl h,fun h => absurd rfl h,rfl⟩
  · have hchunks : (chunksOf content).isEmpty = false := by
      simpa [List.isEmpty_eq_false_iff] using fun h => hnil (chunksOf_eq_nil.mp h)
    have hsplit : splitFiles mapName fileName content = (List.range (chunksOf content).length).map fun i =>
        { mapName := mapName, fileName := fileName, fileContent := (chunksOf content).getD i [],
          filePacketNum := Int32.ofNat i, filePacketTotal := Int32.ofNat (chunksOf content).length } := by
      simp [splitFiles,hchunks]
    have hlen : (splitFiles mapName fileName content).length = (chunksOf content).length := by simp [hsplit]
    have hcontents : (splitFiles mapName fileName content).map File.fileContent = chunksOf content := by
      apply List.ext_getElem
      · simp [hlen]
      · intro i hi _
        have hi' : i < (chunksOf content).length := by simpa [hlen] using hi
        simp [hsplit,hi']
    refine ⟨?_,?_,fun _ i f hf => ?_,fun _ f hf => ?_,?_⟩
    · intro f hf
      rw [hsplit] at hf
      obtain ⟨i,-,rfl⟩ := List.mem_map.mp hf
      exact ⟨rfl,rfl⟩
    · rw [hlen,if_neg hnil,length_chunksOf]
    · rw [hlen]
      rw [hsplit,List.getElem?_map] at hf
      obtain ⟨j,hj,rfl⟩ := Option.map_eq_some_iff.mp hf
      obtain ⟨-,rfl⟩ := List.getElem?_eq_some_iff.mp hj
      simp [asInt32]
    · have hmem : f.fileContent ∈ chunksOf content := hcontents ▸ List.mem_map_of_mem hf
      exact ⟨List.length_pos_of_ne_nil (ne_nil_of_mem_chunksOf hmem),length_le_of_mem_chunksOf hmem⟩
    · rw [hcontents,flatten_chunksOf]

theorem cString_eq_self {n : Bytes} (h : (0 : UInt8) ∉ n) : cString n = n :=
  List.takeWhile_eq_self_iff.mpr (fun b hb => by simpa using fun hzero : b = 0 => h (hzero ▸ hb))

theorem answer_eq (pb : Protobuf) (d : Disk) (ops : ReadOps) (mapName fileName : Bytes) :
    answer pb d ops mapName fileName = (readFile d ops (filePath mapName fileName)).elim [] fun content =>
      (splitFiles mapName fileName content).map (packetFrame pb) := by
  have hframes : ∀ content, fileFrames pb mapName fileName content =
      (splitFiles mapName fileName content).map (packetFrame pb) := by
    intro content
    rw [fileFrames,messages_eq,List.map_map]
    rfl
  unfold answer
  cases readFile d ops (filePath mapName fileName) with
  | none => rfl
  | some content => exact hframes content

/-- Every request for names that are UTF-8 without NUL is answered file by file. Numbers and totals
are 32-bit integers, and exact for up to `2 ^ 31 - 1` packets. -/
theorem download_answered (pb : Protobuf) (s : Server) (read : ℕ → ReadOps) (save : SaveOps) (mapName : Bytes)
    (names : List Bytes) (hutf8 : ∀ n ∈ mapName :: names, ValidUtf8 n) (hnul : ∀ n ∈ mapName :: names, (0 : UInt8) ∉ n) :
    DownloadAnswered asInt32 pb s read save mapName names ∧ ∀ n < 2 ^ 31, asInt32 n = n := by
  obtain ⟨hmap,hnames⟩ := List.forall_mem_cons.mp hutf8
  have hcString : names.map cString = names := by
    conv => rhs; rw [← List.map_id names]
    exact List.map_congr_left (fun n hn => cString_eq_self (hnul n (List.mem_cons_of_mem _ hn)))
  have hpaths : ∀ n ∈ names, ValidUtf8 (filePath mapName n) := fun n hn => mapResPath_utf8 hmap (hnames n hn)
  have htype : ¬ MessageType.file = MessageType.maplist := by decide
  have hdispatch : dispatch pb s read save (downloadRequest mapName names) =
      { server := s, sent := names.zipIdx.flatMap fun x => answer pb s.disk (read x.2) mapName x.1 } := by
    simp only [dispatch,downloadRequest,htype,↓reduceIte,onItemlist,hcString]
    rw [onReceiveDownloadMapRequest_eq,if_pos hpaths]
  refine ⟨⟨?_,fun i n content _ _ => filePackets_splitFiles mapName n content,?_,?_⟩,fun n => asInt32_of_lt⟩
  · rw [hdispatch,List.flatMap_def]
    simp only [answer_eq]
  · rw [hdispatch]
  · rw [hdispatch]

def oneFile (content : Bytes) : Server := .fresh ⟨fun _ => true,fun _ => some content⟩

theorem download_answered_twoFiles : DownloadAnswered asInt32 packetCodec (oneFile [7]) (fun _ => {}) {} (utf8 "m")
    [utf8 "f",utf8 "f"] ∧ ∀ n < 2 ^ 31, asInt32 n = n :=
  download_answered packetCodec (oneFile [7]) (fun _ => {}) {} (utf8 "m") [utf8 "f",utf8 "f"] (by decide) (by decide)

theorem total_out_of_range {mapName fileName content : Bytes} {files : List File}
    (hlen : content.length = maxPacketSize * 2 ^ 31) :
    ¬ FilePackets (fun n => n) mapName fileName content files := by
  intro h
  have hne : content ≠ [] := by
    rintro rfl
    simp [maxPacketSize] at hlen
  have hcount := h.count
  rw [if_neg hne,hlen] at hcount
  unfold maxPacketSize at hcount
  have hpos : 0 < files.length := by omega
  have htotal := (h.numbers hne 0 files[0] (List.getElem?_eq_getElem hpos)).2
  have hlt := files[0].filePacketTotal.toInt_lt
  omega

theorem download_numbers_wrap : ¬ ∀ (pb : Protobuf) (s : Server) (read : ℕ → ReadOps) (save : SaveOps)
    (mapName : Bytes) (names : List Bytes), (∀ n ∈ mapName :: names, ValidUtf8 n) →
    (∀ n ∈ mapName :: names, (0 : UInt8) ∉ n) → DownloadAnswered (fun n => n) pb s read save mapName names := by
  intro h
  have hanswered := h packetCodec (oneFile (List.replicate (maxPacketSize * 2 ^ 31) 0)) (fun _ => {}) {} [] [[]]
    (by simp) (by simp)
  exact total_out_of_range List.length_replicate (hanswered.files 0 [] _ rfl rfl)

end FDemo.MapServer
