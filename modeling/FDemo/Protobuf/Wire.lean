import FDemo.Foundation.Bytes

/-! # The protobuf wire format

Readers and writers of `parse_context` and `wire_format_lite`, over a message
type of which only a function from tags to field parsers is known. The stream is
read from a buffer that goes on behind its end, and a field is stored before
anybody looks whether it ended in time, so a parser that fails leaves behind
what it has stored. Positions are lengths: of what is left to be read, the bytes
behind the end included.
-/
namespace FDemo.Wire

/-- A varint of at most `limit` bytes, not yet cut to a machine type. -/
def readVarint : ℕ → Bytes → Option (ℕ × Bytes)
  | 0, _ => none
  | _ + 1, [] => none
  | limit + 1, b :: bs =>
    if b < 0x80 then some (b.toNat,bs)
    else (readVarint limit bs).map fun x => (b.toNat - 128 + 128 * x.1,x.2)

def readTag (bs : Bytes) : Option (ℕ × Bytes) :=
  (readVarint 5 bs).map fun x => (x.1 % 2 ^ 32,x.2)

/-- `ReadSize`: nothing above `INT_MAX - kSlopBytes`. -/
def readSize (bs : Bytes) : Option (ℕ × Bytes) :=
  (readVarint 5 bs).filter fun x => x.1 ≤ 2 ^ 31 - 1 - 16

/-- A `length` that is there, and what follows it. -/
def readExact (length : ℕ) (bs : Bytes) : Option (Bytes × Bytes) :=
  if length ≤ bs.length then some (bs.take length,bs.drop length) else none

def littleEndianValue (bs : Bytes) : ℕ := bs.foldr (fun b n => b.toNat + 256 * n) 0

/-- `kSlopBytes`: so many bytes of `buffer_`, all zero, follow the stream. They are read like any others, and
the next `Done` notices. -/
def slopBytes : ℕ := 16

/-- Where the string of a field may end. A `flat` one begins in the bytes of the caller, and `AppendSize` goes
on behind them only when the limit lies `beyond`. -/
structure Reach where
  flat : Bool
  beyond : Bool

/-- For the field that begins here, when `stop` bytes are left at the limit. The last `kSlopBytes` of the stream
are read from `buffer_`. -/
def reach (stop : ℤ) (bs : Bytes) : Reach := ⟨2 * slopBytes < bs.length,stop < slopBytes⟩

/-- `ReadString`: what it stores, and what follows unless it fails. -/
def Reach.readString (r : Reach) (size : ℕ) (bs : Bytes) : Bytes × Option Bytes :=
  if size ≤ bs.length ∧ (¬ r.flat ∨ r.beyond ∨ size + slopBytes ≤ bs.length) then (bs.take size,some (bs.drop size))
  else (if r.flat then bs.take (bs.length - slopBytes) else [],none)

/-- `Done`: nothing to go on, or whether the parser stands at the limit. -/
def done (stop : ℤ) (bs : Bytes) : Option Bool :=
  if (bs.length : ℤ) = stop then some (slopBytes ≤ bs.length)
  else if stop < bs.length ∧ slopBytes < bs.length then none
  else some false

/-- An unknown field of wire type 0, 1, 2 or 5. -/
def skipValue (r : Reach) : ℕ → Bytes → Option Bytes
  | 0, bs => (readVarint 10 bs).map Prod.snd
  | 1, bs => (readExact 8 bs).map Prod.snd
  | 2, bs => (readSize bs).bind fun x => (r.readString x.1 x.2).2
  | 5, bs => (readExact 4 bs).map Prod.snd
  | _, _ => none

/-- The fields of unknown groups that are open, by number and innermost first. Every field takes a
byte, so `fuel` may be the number of bytes. -/
def skipGroups (depth : ℕ) (stop : ℤ) : ℕ → List ℕ → Bytes → Option Bytes
  | _, [], bs => some bs
  | 0, _ :: _, _ => none
  | fuel + 1, number :: groups, bs =>
    if (done stop bs).isSome then none
    else (readTag bs).bind fun x =>
      if x.1 / 8 = 0 then none
      else if x.1 % 8 = 4 then if x.1 / 8 = number then skipGroups depth stop fuel groups x.2 else none
      else if x.1 % 8 = 3 then
        if groups.length + 1 < depth then skipGroups depth stop fuel (x.1 / 8 :: number :: groups) x.2 else none
      else (skipValue (reach stop bs) (x.1 % 8) x.2).bind fun bs => skipGroups depth stop fuel (number :: groups) bs

/-- `UnknownFieldParse` for a tag that does not end a group. -/
def skipField (depth : ℕ) (stop : ℤ) (r : Reach) (tag : ℕ) (bs : Bytes) : Option Bytes :=
  if tag / 8 = 0 then none
  else if tag % 8 = 3 then if 0 < depth then skipGroups depth stop bs.length [tag / 8] bs else none
  else skipValue r (tag % 8) bs

/-- One `case` of a generated `switch`: the message after it, and the bytes that follow the field
unless a check failed. -/
abbrev FieldCase (σ : Type*) := Reach → σ → Bytes → σ × Option Bytes

variable {σ : Type*}

/-- The loop of a generated `_InternalParse`, and what follows when it ended at the limit. -/
def parseLoop (depth : ℕ) (field : ℕ → Option (FieldCase σ)) (stop : ℤ) : ℕ → σ → Bytes → σ × Option Bytes
  | 0, m, _ => (m,none)
  | fuel + 1, m, bs =>
    match done stop bs with
    | some ended => (m,if ended then some bs else none)
    | none =>
      match readTag bs with
      | none => (m,none)
      | some (tag,rest) =>
        match field tag with
        | some parse =>
          match parse (reach stop bs) m rest with
          | (m,none) => (m,none)
          | (m,some bs) => parseLoop depth field stop fuel m bs
        | none =>
          if tag = 0 ∨ tag % 8 = 4 then (m,none)
          else
            match skipField depth stop (reach stop bs) tag rest with
            | none => (m,none)
            | some bs => parseLoop depth field stop fuel m bs

/-- `MergeFromImpl`: the limit is the end of the stream. -/
def parse (depth : ℕ) (field : ℕ → Option (FieldCase σ)) (m : σ) (bs : Bytes) : σ × Bool :=
  let r := parseLoop depth field slopBytes (bs.length + slopBytes) m (bs ++ List.replicate slopBytes 0)
  (r.1,r.2.isSome)

/-- The varint modulo `2 ^ 32`. It is stored before `ptr` is checked, and zero when it does not end. -/
def int32Field (set : σ → Int32 → σ) : FieldCase σ := fun _ m bs =>
  match readVarint 10 bs with
  | none => (set m 0,none)
  | some (v,bs) => (set m (Int32.ofNat v),some bs)

/-- The same for an enum, where `ptr` is checked first. -/
def enumField (set : σ → Int32 → σ) : FieldCase σ := fun _ m bs =>
  match readVarint 10 bs with
  | none => (m,none)
  | some (v,bs) => (set m (Int32.ofNat v),some bs)

def doubleField (set : σ → UInt64 → σ) : FieldCase σ := fun _ m bs =>
  match readExact 8 bs with
  | none => (m,none)
  | some (v,bs) => (set m (UInt64.ofNat (littleEndianValue v)),some bs)

def bytesField (set : σ → Bytes → σ) : FieldCase σ := fun r m bs =>
  match readSize bs with
  | none => (m,none)
  | some (size,bs) => (set m (r.readString size bs).1,(r.readString size bs).2)

/-- A string is stored before it is checked. -/
def stringField (set : σ → Bytes → σ) : FieldCase σ := fun r m bs =>
  match readSize bs with
  | none => (m,none)
  | some (size,bs) =>
    let s := r.readString size bs
    (set m s.1,if ValidUtf8 s.1 then s.2 else none)

/-- `ParseMessage` of a message inside `m`, which is there before its size is read. -/
def messageField {τ : Type*} (depth : ℕ) (field : ℕ → Option (FieldCase τ)) (get : σ → τ) (set : σ → τ → σ) :
    FieldCase σ := fun _ m bs =>
  match readSize bs with
  | none => (set m (get m),none)
  | some (size,bs) =>
    let r := parseLoop depth field (bs.length - size) bs.length (get m) bs
    (set m r.1,r.2)

/-- `WriteVarint`, of at most `limit` bytes. -/
def writeVarint : ℕ → ℕ → Bytes
  | 0, _ => []
  | limit + 1, n => if n < 128 then [UInt8.ofNat n] else UInt8.ofNat (n % 128 + 128) :: writeVarint limit (n / 128)

/-- A negative value is sign-extended to 64 bits. -/
def writeInt32 (tag : UInt8) (v : Int32) : Bytes := if v = 0 then [] else tag :: writeVarint 10 (sizeOfInt v)

def littleEndianBytes : ℕ → ℕ → Bytes
  | 0, _ => []
  | length + 1, n => UInt8.ofNat n :: littleEndianBytes length (n / 256)

def writeDouble (tag : UInt8) (v : UInt64) : Bytes := if v = 0 then [] else tag :: littleEndianBytes 8 v.toNat

def writeLengthDelimited (tag : UInt8) (bs : Bytes) : Bytes := tag :: (writeVarint 5 bs.length ++ bs)

def writeString (tag : UInt8) (s : Bytes) : Bytes := if s = [] then [] else writeLengthDelimited tag s

section Readers

theorem readVarint_writeVarint {limit n : ℕ} (h : n < 128 ^ (limit + 1)) (rest : Bytes) :
    readVarint (limit + 1) (writeVarint (limit + 1) n ++ rest) = some (n,rest) := by
  induction limit generalizing n with
  | zero =>
    have hsmall : n < 128 := by simpa using h
    have hbyte : (UInt8.ofNat n).toNat = n := UInt8.toNat_ofNat_of_lt' (hsmall.trans (by decide))
    have hlt : UInt8.ofNat n < 0x80 := UInt8.lt_iff_toNat_lt.mpr (by rw [hbyte]; exact hsmall)
    simp [writeVarint,readVarint,hsmall,hlt,hbyte]
  | succ limit ih =>
    rw [writeVarint]
    by_cases hsmall : n < 128
    · have hbyte : (UInt8.ofNat n).toNat = n := UInt8.toNat_ofNat_of_lt' (hsmall.trans (by decide))
      have hlt : UInt8.ofNat n < 0x80 := UInt8.lt_iff_toNat_lt.mpr (by rw [hbyte]; exact hsmall)
      simp [readVarint,hsmall,hlt,hbyte]
    · have hbyte : (UInt8.ofNat (n % 128 + 128)).toNat = n % 128 + 128 :=
        UInt8.toNat_ofNat_of_lt' (by rw [UInt8.size]; omega)
      have hlt : ¬ UInt8.ofNat (n % 128 + 128) < 0x80 := by
        rw [UInt8.lt_iff_toNat_lt,hbyte]
        exact Nat.not_lt.mpr (Nat.le_add_left _ _)
      have hrest := ih (n := n / 128) (Nat.div_lt_of_lt_mul (by rw [← Nat.pow_succ']; exact h))
      simp only [if_neg hsmall,List.cons_append,readVarint,if_neg hlt,hrest,Option.map_some,hbyte,Option.some.injEq,
        Prod.mk.injEq,and_true]
      omega

theorem readTag_cons {tag : UInt8} (h : tag < 0x80) (rest : Bytes) : readTag (tag :: rest) = some (tag.toNat,rest) := by
  simp [readTag,readVarint,h]

theorem readSize_writeVarint {n : ℕ} (h : n ≤ 2 ^ 31 - 1 - 16) (rest : Bytes) :
    readSize (writeVarint 5 n ++ rest) = some (n,rest) := by
  rw [readSize,readVarint_writeVarint (h.trans_lt (by decide))]
  simpa using h

theorem readExact_append (bs rest : Bytes) : readExact bs.length (bs ++ rest) = some (bs,rest) := by
  simp [readExact]

theorem readString_append (r : Reach) (bs : Bytes) {rest : Bytes} (h : slopBytes ≤ rest.length) :
    r.readString bs.length (bs ++ rest) = (bs,some rest) := by
  have hlen : bs.length + slopBytes ≤ (bs ++ rest).length := by
    rw [List.length_append]
    exact Nat.add_le_add_left h _
  rw [Reach.readString,if_pos ⟨(Nat.le_add_right _ _).trans hlen,Or.inr (Or.inr hlen)⟩,List.take_left,List.drop_left]

theorem done_of_lt {stop : ℤ} {bs : Bytes} (hstop : stop < bs.length) (hslop : slopBytes < bs.length) :
    done stop bs = none := by
  rw [done,if_neg hstop.ne',if_pos ⟨hstop,hslop⟩]

theorem done_of_eq {bs : Bytes} (h : slopBytes ≤ bs.length) : done bs.length bs = some true := by
  rw [done,if_pos rfl,decide_eq_true h]

@[simp] theorem length_littleEndianBytes (length n : ℕ) : (littleEndianBytes length n).length = length := by
  induction length generalizing n with
  | zero => rfl
  | succ length ih => simp [littleEndianBytes,ih]

theorem littleEndianValue_littleEndianBytes {length n : ℕ} (h : n < 256 ^ length) :
    littleEndianValue (littleEndianBytes length n) = n := by
  induction length generalizing n with
  | zero => simpa [littleEndianBytes,littleEndianValue,eq_comm] using h
  | succ length ih =>
    have hrest := ih (n := n / 256) (Nat.div_lt_of_lt_mul (by rw [← Nat.pow_succ']; exact h))
    simp only [littleEndianValue,littleEndianBytes,List.foldr_cons] at hrest ⊢
    rw [hrest,UInt8.toNat_ofNat']
    omega

theorem ofNat_sizeOfInt (v : Int32) : Int32.ofNat (sizeOfInt v) = v := by
  apply Int32.toInt_inj.mp
  have hle := v.le_toInt
  have hlt := v.toInt_lt
  rw [Int32.toInt_ofNat',sizeOfInt]
  have hcast : ((v.toInt % 2 ^ 64).toNat : ℤ) = v.toInt % 2 ^ 64 := Int.toNat_of_nonneg (by omega)
  rw [hcast]
  simp only [Int32.size,Int.bmod]
  omega

theorem sizeOfInt_lt (v : Int32) : sizeOfInt v < 2 ^ 64 := by
  unfold sizeOfInt
  omega

theorem length_writeVarint_le (limit n : ℕ) : (writeVarint limit n).length ≤ limit := by
  induction limit generalizing n with
  | zero => simp [writeVarint]
  | succ limit ih =>
    unfold writeVarint
    split
    · simp
    · exact Nat.succ_le_succ (ih (n / 128))

theorem length_writeInt32_le (tag : UInt8) (v : Int32) : (writeInt32 tag v).length ≤ 11 := by
  unfold writeInt32
  split
  · simp
  · exact Nat.succ_le_succ (length_writeVarint_le 10 (sizeOfInt v))

theorem length_writeLengthDelimited_le (tag : UInt8) (bs : Bytes) :
    (writeLengthDelimited tag bs).length ≤ 6 + bs.length := by
  have hsize := length_writeVarint_le 5 bs.length
  simp only [writeLengthDelimited,List.length_cons,List.length_append]
  omega

theorem length_writeString_le (tag : UInt8) (s : Bytes) : (writeString tag s).length ≤ 6 + s.length := by
  unfold writeString
  split
  · simp
  · exact length_writeLengthDelimited_le tag s

theorem length_le_writeLengthDelimited (tag : UInt8) (bs : Bytes) :
    bs.length ≤ (writeLengthDelimited tag bs).length := by
  simp only [writeLengthDelimited,List.length_cons,List.length_append]
  omega

theorem length_le_writeString (tag : UInt8) (s : Bytes) : s.length ≤ (writeString tag s).length := by
  unfold writeString
  split
  · rename_i hs
    simp [hs]
  · exact length_le_writeLengthDelimited tag s

end Readers

/-- From `m` the loop reads `bs` and goes on with `m'`, whatever follows. -/
def Parses (depth : ℕ) (field : ℕ → Option (FieldCase σ)) (bs : Bytes) (m m' : σ) : Prop :=
  ∀ (stop : ℤ) fuel rest, (bs ++ rest).length ≤ fuel → stop ≤ rest.length → slopBytes ≤ rest.length →
    ∃ fuel', rest.length ≤ fuel' ∧
      parseLoop depth field stop fuel m (bs ++ rest) = parseLoop depth field stop fuel' m' rest

namespace Parses
variable {depth : ℕ} {field : ℕ → Option (FieldCase σ)} {m m' m'' : σ} {bs bs' : Bytes}

theorem nil (m : σ) : Parses depth field [] m m := fun _ fuel _ h _ _ => ⟨fuel,h,rfl⟩

theorem append (h : Parses depth field bs m m') (h' : Parses depth field bs' m' m'') :
    Parses depth field (bs ++ bs') m m'' := by
  intro stop fuel rest hfuel hstop hslop
  rw [List.append_assoc] at hfuel ⊢
  have hlen : rest.length ≤ (bs' ++ rest).length := by simp
  obtain ⟨fuel',hfuel',heq⟩ := h stop fuel (bs' ++ rest) hfuel (by omega) (hslop.trans hlen)
  obtain ⟨fuel'',hfuel'',heq'⟩ := h' stop fuel' rest hfuel' hstop hslop
  exact ⟨fuel'',hfuel'',heq.trans heq'⟩

/-- A limit behind what is read ends the loop there. -/
theorem parseLoop_eq (h : Parses depth field bs m m') {rest : Bytes} (hslop : slopBytes ≤ rest.length) {fuel : ℕ}
    (hfuel : (bs ++ rest).length ≤ fuel) : parseLoop depth field rest.length fuel m (bs ++ rest) = (m',some rest) := by
  obtain ⟨fuel',hfuel',heq⟩ := h rest.length fuel rest hfuel le_rfl hslop
  have hpos : 0 < slopBytes := by decide
  obtain ⟨fuel',rfl⟩ := Nat.exists_eq_add_one_of_ne_zero (Nat.ne_of_gt (hpos.trans_le (hslop.trans hfuel')))
  rw [heq,parseLoop,done_of_eq hslop]
  rfl

theorem parse_eq (h : Parses depth field bs m m') : parse depth field m bs = (m',true) := by
  have hlen : (List.replicate slopBytes (0 : UInt8)).length = slopBytes := List.length_replicate
  have hfuel : (bs ++ List.replicate slopBytes (0 : UInt8)).length ≤ bs.length + slopBytes := by
    rw [List.length_append,hlen]
  have hloop := h.parseLoop_eq hlen.ge hfuel
  rw [hlen] at hloop
  rw [parse,hloop]
  rfl

theorem single {tag : UInt8} {parse : FieldCase σ} (htag : tag < 0x80) (hfield : field tag.toNat = some parse)
    (hparse : ∀ r rest, slopBytes ≤ rest.length → parse r m (bs ++ rest) = (m',some rest)) :
    Parses depth field (tag :: bs) m m' := by
  intro stop fuel rest hfuel hstop hslop
  have hlen : (tag :: bs ++ rest).length = bs.length + rest.length + 1 := by
    rw [List.cons_append,List.length_cons,List.length_append]
  obtain ⟨fuel,rfl⟩ := Nat.exists_eq_add_one_of_ne_zero (Nat.ne_of_gt (Nat.zero_lt_of_lt (hlen ▸ hfuel)))
  refine ⟨fuel,by omega,?_⟩
  rw [parseLoop,done_of_lt (by omega) (by omega),List.cons_append,readTag_cons htag]
  simp only [hfield,hparse _ rest hslop]

section Fields
variable {tag : UInt8} (htag : tag < 0x80)
include htag

/-- Both kinds of varint fields. -/
theorem varint {parse : FieldCase σ} {set : σ → Int32 → σ} (hfield : field tag.toNat = some parse)
    (hparse : ∀ r bs n rest, readVarint 10 bs = some (n,rest) → parse r m bs = (set m (Int32.ofNat n),some rest))
    {v : Int32} (hset : set m v = m') (hzero : v = 0 → set m v = m) : Parses depth field (writeInt32 tag v) m m' := by
  unfold writeInt32
  split
  · rename_i hv
    rw [← hset,hzero hv]
    exact nil m
  · refine single htag hfield fun r rest _ => ?_
    have hlt : sizeOfInt v < 128 ^ (9 + 1) := (sizeOfInt_lt v).trans (by decide)
    rw [hparse r _ _ _ (readVarint_writeVarint hlt rest),ofNat_sizeOfInt,hset]

theorem int32 {set : σ → Int32 → σ} (hfield : field tag.toNat = some (int32Field set)) {v : Int32}
    (hset : set m v = m') (hzero : v = 0 → set m v = m) : Parses depth field (writeInt32 tag v) m m' :=
  varint htag hfield (fun r bs n rest h => by rw [int32Field,h]) hset hzero

theorem enum {set : σ → Int32 → σ} (hfield : field tag.toNat = some (enumField set)) {v : Int32}
    (hset : set m v = m') (hzero : v = 0 → set m v = m) : Parses depth field (writeInt32 tag v) m m' :=
  varint htag hfield (fun r bs n rest h => by rw [enumField,h]) hset hzero

theorem double {set : σ → UInt64 → σ} (hfield : field tag.toNat = some (doubleField set)) {v : UInt64}
    (hset : set m v = m') (hzero : v = 0 → set m v = m) : Parses depth field (writeDouble tag v) m m' := by
  unfold writeDouble
  split
  · rename_i hv
    rw [← hset,hzero hv]
    exact nil m
  · refine single htag hfield fun _ rest _ => ?_
    have hlt : v.toNat < 256 ^ 8 := v.toNat_lt.trans_eq (by decide)
    have hread : readExact 8 (littleEndianBytes 8 v.toNat ++ rest) = some (littleEndianBytes 8 v.toNat,rest) := by
      simpa using readExact_append (littleEndianBytes 8 v.toNat) rest
    rw [doubleField,hread]
    simp only [littleEndianValue_littleEndianBytes hlt,UInt64.ofNat_toNat,hset]

theorem bytes {set : σ → Bytes → σ} (hfield : field tag.toNat = some (bytesField set)) {s : Bytes}
    (hset : set m s = m') (hnil : s = [] → set m s = m) (hlen : s.length ≤ 2 ^ 31 - 1 - 16) :
    Parses depth field (writeString tag s) m m' := by
  unfold writeString
  split
  · rename_i hs
    rw [← hset,hnil hs]
    exact nil m
  · refine single htag hfield fun r rest hslop => ?_
    rw [bytesField,List.append_assoc,readSize_writeVarint hlen]
    simp only [readString_append r s hslop,hset]

theorem string {set : σ → Bytes → σ} (hfield : field tag.toNat = some (stringField set)) {s : Bytes}
    (hset : set m s = m') (hnil : s = [] → set m s = m) (hlen : s.length ≤ 2 ^ 31 - 1 - 16) (hutf8 : ValidUtf8 s) :
    Parses depth field (writeString tag s) m m' := by
  unfold writeString
  split
  · rename_i hs
    rw [← hset,hnil hs]
    exact nil m
  · refine single htag hfield fun r rest hslop => ?_
    rw [stringField,List.append_assoc,readSize_writeVarint hlen]
    simp only [readString_append r s hslop,if_pos hutf8,hset]

theorem message {τ : Type*} {depth' : ℕ} {inner : ℕ → Option (FieldCase τ)} {get : σ → τ} {set : σ → τ → σ}
    (hfield : field tag.toNat = some (messageField depth' inner get set)) {v : τ} (hset : set m v = m')
    (hlen : bs.length ≤ 2 ^ 31 - 1 - 16) (hbs : Parses depth' inner bs (get m) v) :
    Parses depth field (writeLengthDelimited tag bs) m m' := by
  refine single htag hfield fun _ rest hslop => ?_
  have hlimit : ((bs ++ rest).length : ℤ) - bs.length = rest.length := by
    rw [List.length_append,Nat.cast_add,add_sub_cancel_left]
  rw [messageField,List.append_assoc,readSize_writeVarint hlen]
  simp only [hlimit,hbs.parseLoop_eq hslop le_rfl,hset]

end Fields
end Parses
end FDemo.Wire
