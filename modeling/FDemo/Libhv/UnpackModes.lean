import FDemo.Foundation.Search
import FDemo.Libhv.ReadBuffer

/-! # What each unpack mode takes off the stream

A mode peels packages of at most `package_max_length` bytes off the pending bytes
and gives the connection up when none can begin there. The loops of `unpack.c`
run over the read buffer and find just these packages; the delimiter is looked
for only where no earlier read has looked.
-/
namespace FDemo.Libhv
namespace Setting

/-- The settings that name a package: with a length field, one in network byte order. -/
inductive Served : Setting → Prop where
  | fixedLength {max n : UInt32} : n ≠ 0 → n ≤ max → Served (fixedLength max n)
  | delimiter {max : UInt32} {d : Bytes} : d ≠ [] → Served (delimiter max d)
  | lengthField {s : UnpackSetting} : s.lengthFieldCoding = .bigEndian →
      s.lengthFieldOffset.toNat + s.lengthFieldBytes.toNat ≤ s.bodyOffset.toNat → s.bodyOffset ≠ 0 →
      s.bodyOffset.toUInt32 ≤ s.packageMaxLength → Served (lengthField s)

/-- The package at the front of the pending bytes, if it is complete and allowed. -/
def peel : Setting → Bytes → Option (Bytes × Bytes)
  | fixedLength _ n, p => if n.toNat ≤ p.length then some (p.take n.toNat,p.drop n.toNat) else none
  | delimiter max d, p =>
    (firstEnd d p).bind fun e => if e ≤ max.toNat then some (p.take e,p.drop e) else none
  | lengthField s, p => (takePackage s p).filter fun package => package.1.length ≤ s.packageMaxLength.toNat

/-- No package can begin with these bytes. -/
def exceeds : Setting → Bytes → Prop
  | fixedLength _ _, _ => False
  | setting@(delimiter max _), p => setting.peel p = none ∧ max.toNat ≤ p.length
  | lengthField s, p => p ≠ [] ∧ s.bodyOffset.toNat ≤ p.length ∧ s.packageMaxLength < announced s p

end Setting

variable {s : UnpackSetting} {m T : Bytes} {p fuel : ℕ}

theorem announced_append_of_le (hfield : s.lengthFieldOffset.toNat + s.lengthFieldBytes.toNat ≤ s.bodyOffset.toNat)
    {p : Bytes} (hp : s.bodyOffset.toNat ≤ p.length) (y : Bytes) : announced s (p ++ y) = announced s p := by
  unfold announced
  rw [List.drop_append_of_le_length (by omega),List.take_append_of_le_length (by rw [List.length_drop]; omega)]

namespace Setting

theorem peel_fixedLength_append {max n : UInt32} {p f q : Bytes} (h : (fixedLength max n).peel p = some (f,q))
    (y : Bytes) : (fixedLength max n).peel (p ++ y) = some (f,q ++ y) := by
  by_cases hn : n.toNat ≤ p.length
  · obtain ⟨rfl,rfl⟩ : p.take n.toNat = f ∧ p.drop n.toNat = q := by simpa [peel,hn] using h
    have happ : n.toNat ≤ p.length + y.length := by omega
    simp [peel,happ,List.take_append_of_le_length hn,List.drop_append_of_le_length hn]
  · exact absurd h (by simp [peel,hn])

theorem peel_delimiter_eq_some {max : UInt32} {d p f q : Bytes} : (delimiter max d).peel p = some (f,q) ↔
    ∃ e, firstEnd d p = some e ∧ e ≤ max.toNat ∧ f = p.take e ∧ q = p.drop e := by
  simp only [peel,Option.bind_eq_some_iff]
  constructor
  · rintro ⟨e,he,h⟩
    by_cases hmax : e ≤ max.toNat
    · obtain ⟨rfl,rfl⟩ : p.take e = f ∧ p.drop e = q := by simpa [hmax] using h
      exact ⟨e,he,hmax,rfl,rfl⟩
    · exact absurd h (by simp [hmax])
  · rintro ⟨e,he,hmax,rfl,rfl⟩
    exact ⟨e,he,by simp [hmax]⟩

theorem peel_delimiter_eq_none {max : UInt32} {d p : Bytes} : (delimiter max d).peel p = none ↔
    ∀ e, firstEnd d p = some e → max.toNat < e := by
  rw [Option.eq_none_iff_forall_ne_some]
  constructor
  · intro h e he
    by_contra hle
    exact h _ (peel_delimiter_eq_some.mpr ⟨e,he,Nat.not_lt.mp hle,rfl,rfl⟩)
  · rintro h ⟨f,q⟩ hsome
    obtain ⟨e,he,hmax,-,-⟩ := peel_delimiter_eq_some.mp hsome
    exact absurd (h e he) (Nat.not_lt.mpr hmax)

theorem peel_delimiter_append {max : UInt32} {d p f q : Bytes} (h : (delimiter max d).peel p = some (f,q))
    (y : Bytes) : (delimiter max d).peel (p ++ y) = some (f,q ++ y) := by
  obtain ⟨e,he,hmax,rfl,rfl⟩ := peel_delimiter_eq_some.mp h
  have hle := (firstEnd_bounds he).2
  exact peel_delimiter_eq_some.mpr ⟨e,firstEnd_append he y,hmax,by rw [List.take_append_of_le_length hle],
    by rw [List.drop_append_of_le_length hle]⟩

theorem exceeds_delimiter_append {max : UInt32} {d p : Bytes} (hd : d ≠ []) (h : (delimiter max d).exceeds p) (y : Bytes) :
    (delimiter max d).exceeds (p ++ y) := by
  obtain ⟨hwait,hfull⟩ := h
  refine ⟨peel_delimiter_eq_none.mpr fun e he => ?_,by rw [List.length_append]; omega⟩
  rcases hp : firstEnd d p with _ | e'
  · exact Nat.lt_of_le_of_lt hfull (firstEnd_append_of_none hd hp he)
  · obtain rfl : e' = e := Option.some.inj ((firstEnd_append hp y).symm.trans he)
    exact peel_delimiter_eq_none.mp hwait e' hp

theorem peel_lengthField_eq_some (hbe : s.lengthFieldCoding = .bigEndian) {p f q : Bytes} :
    (lengthField s).peel p = some (f,q) ↔ takePackage s p = some (f,q) ∧ announced s p ≤ s.packageMaxLength := by
  simp only [peel,Option.filter_eq_some_iff,decide_eq_true_eq,UInt32.le_iff_toNat_le]
  refine and_congr_right fun h => ?_
  obtain ⟨-,hle,rfl,-⟩ := (takePackage_eq_some hbe).mp h
  rw [List.length_take,Nat.min_eq_left hle]

theorem peel_lengthField_append (hbe : s.lengthFieldCoding = .bigEndian)
    (hfield : s.lengthFieldOffset.toNat + s.lengthFieldBytes.toNat ≤ s.bodyOffset.toNat) {p f q : Bytes}
    (h : (lengthField s).peel p = some (f,q)) (y : Bytes) : (lengthField s).peel (p ++ y) = some (f,q ++ y) := by
  obtain ⟨htake,hmax⟩ := (peel_lengthField_eq_some hbe).mp h
  obtain ⟨hhead,hle,rfl,rfl⟩ := (takePackage_eq_some hbe).mp htake
  have happ := announced_append_of_le hfield hhead y
  refine (peel_lengthField_eq_some hbe).mpr ⟨(takePackage_eq_some hbe).mpr ⟨?_,?_,?_,?_⟩,happ ▸ hmax⟩
  · rw [List.length_append]
    omega
  · rw [happ,List.length_append]
    omega
  · rw [happ,List.take_append_of_le_length hle]
  · rw [happ,List.drop_append_of_le_length hle]

theorem exceeds_lengthField_peel (hbe : s.lengthFieldCoding = .bigEndian) {p : Bytes} (h : (lengthField s).exceeds p) :
    (lengthField s).peel p = none := by
  rw [Option.eq_none_iff_forall_ne_some]
  rintro ⟨f,q⟩ hsome
  exact absurd h.2.2 (UInt32.not_lt.mpr ((peel_lengthField_eq_some hbe).mp hsome).2)

theorem Served.limited {setting : Setting} (h : setting.Served) : Limited setting.peel setting.exceeds := by
  cases h with
  | fixedLength _ _ => exact ⟨fun _ _ _ y hpeel => peel_fixedLength_append hpeel y,fun _ => False.elim,fun _ _ => id⟩
  | delimiter hd =>
    exact ⟨fun _ _ _ y hpeel => peel_delimiter_append hpeel y,fun _ hover => hover.1,
      fun _ y hover => exceeds_delimiter_append hd hover y⟩
  | lengthField hbe hfield _ _ =>
    refine ⟨fun _ _ _ y hpeel => peel_lengthField_append hbe hfield hpeel y,fun _ => exceeds_lengthField_peel hbe,?_⟩
    rintro p y ⟨hne,hhead,hmax⟩
    exact ⟨by simp [hne],by rw [List.length_append]; omega,(announced_append_of_le hfield hhead y).symm ▸ hmax⟩

end Setting

/-! ### The loops -/

theorem fixedLengthLoop_drains (hm : T <+: m) (max : UInt32) {n : UInt32} (hn : n ≠ 0) (hp : p ≤ T.length)
    (hfuel : T.length - p < fuel) : ∃ c, fixedLengthLoop m T.length n.toNat fuel p = .ok c ∧ c.rest ≤ T.length ∧
      Drains (Setting.fixedLength max n).peel (T.drop p) c.calls (T.drop c.rest) := by
  induction fuel generalizing p with
  | zero => exact absurd hfuel (Nat.not_lt_zero _)
  | succ fuel ih =>
    have hpos : 0 < n.toNat := Nat.pos_of_ne_zero fun h => hn (UInt32.toNat_inj.mp h)
    by_cases hle : n.toNat ≤ T.length - p
    · obtain ⟨c,hloop,hrest,hdrains⟩ := ih (p := p + n.toNat) (by omega) (by omega)
      have hload := load_inside hm p n.toNat (by omega)
      refine ⟨{ c with calls := (T.drop p).take n.toNat :: c.calls },?_,hrest,.take (q := T.drop (p + n.toNat)) ?_ hdrains⟩
      · simp [fixedLengthLoop,hle,hload,hloop]
      · simp [Setting.peel,hle]
    · refine ⟨⟨[],p⟩,by simp [fixedLengthLoop,hle],hp,.wait ?_⟩
      simp [Setting.peel,hle]

/-- When no delimiter begins from `sp` to `p`, the first one behind `sp` is the first one behind `p`. -/
theorem firstEnd_scanned {d : Bytes} {sp : ℕ} (hsp : sp ≤ p) (hp : p ≤ T.length)
    (hseen : ∀ j, sp ≤ j → j < p → ¬ d <+: T.drop j) :
    firstEnd d (T.drop sp) = (firstEnd d (T.drop p)).map (· + (p - sp)) := by
  have hskip := firstEnd_drop (d := d) (p := T.drop sp) (k := p - sp) (by rw [List.length_drop]; omega) (by
    intro j hj
    rw [List.drop_drop]
    exact hseen (sp + j) (Nat.le_add_right sp j) (by omega))
  rwa [List.drop_drop,Nat.add_sub_cancel' hsp] at hskip

theorem delimiterLoop_drains (hm : T <+: m) {max : UInt32} (hmax : T.length ≤ max.toNat) {d : Bytes} (hd : d ≠ [])
    (sp p : ℕ) (hsp : sp ≤ p) (hp : p ≤ T.length) (hseen : ∀ j, sp ≤ j → j < p → ¬ d <+: T.drop j)
    (hfuel : T.length - p < fuel) : ∃ c, delimiterLoop m T.length d fuel sp p = .ok c ∧ c.rest ≤ T.length ∧
      Drains (Setting.delimiter max d).peel (T.drop sp) c.calls (T.drop c.rest) := by
  induction fuel generalizing sp p with
  | zero => exact absurd hfuel (Nat.not_lt_zero _)
  | succ fuel ih =>
    have hpos := List.length_pos_of_ne_nil hd
    have hfirst := firstEnd_scanned hsp hp hseen
    by_cases hle : d.length ≤ T.length - p
    · have hload := load_inside hm p d.length (by omega)
      by_cases hmatch : d <+: T.drop p
      · rw [firstEnd_at_front hd hmatch,Option.map_some] at hfirst
        obtain ⟨c,hloop,hrest,hdrains⟩ := ih (p + d.length) (p + d.length) le_rfl (by omega)
          (fun j hj hj' => absurd hj (Nat.not_le.mpr hj')) (by omega)
        have hpackage := load_inside hm sp (p + d.length - sp) (by omega)
        refine ⟨{ c with calls := (T.drop sp).take (p + d.length - sp) :: c.calls },?_,hrest,
          .take (q := T.drop (p + d.length)) ?_ hdrains⟩
        · simp [delimiterLoop,hle,hload,hpackage,← List.prefix_iff_eq_take.mp hmatch,hloop]
        · have hend : d.length + (p - sp) = p + d.length - sp := by omega
          refine Setting.peel_delimiter_eq_some.mpr ⟨_,hfirst,by omega,by rw [hend],?_⟩
          rw [List.drop_drop]
          congr 1
          omega
      · have hnext : ∀ j, sp ≤ j → j < p + 1 → ¬ d <+: T.drop j := by
          intro j hj hj'
          rcases Nat.lt_or_ge j p with hlt | hge
          · exact hseen j hj hlt
          · obtain rfl : j = p := by omega
            exact hmatch
        obtain ⟨c,hloop,hrest,hdrains⟩ := ih sp (p + 1) (by omega) (by omega) hnext (by omega)
        have hne : (T.drop p).take d.length ≠ d := fun h => hmatch (List.prefix_iff_eq_take.mpr h.symm)
        exact ⟨c,by simp [delimiterLoop,hle,hload,hne,hloop],hrest,hdrains⟩
    · refine ⟨⟨[],sp⟩,by simp [delimiterLoop,hle],hsp.trans hp,.wait (Setting.peel_delimiter_eq_none.mpr ?_)⟩
      intro e he
      rw [hfirst,firstEnd_of_short (by rw [List.length_drop]; omega)] at he
      exact absurd he (Option.some_ne_none e).symm

theorem packageLenAt_eq (hm : T <+: m) (hcoding : s.lengthFieldCoding ≠ .varint)
    (hfield : s.lengthFieldOffset.toNat + s.lengthFieldBytes.toNat ≤ s.bodyOffset.toNat)
    (hhead : s.bodyOffset.toNat ≤ T.length - p) (hp : p ≤ T.length) :
    ∃ n, packageLen s (T.drop p) = .length n ∧ packageLenAt s m T.length p = .ok (.length n) := by
  have hload := load_inside hm (p + s.lengthFieldOffset.toNat) s.lengthFieldBytes.toNat (by omega)
  rw [← List.drop_drop] at hload
  cases hc : s.lengthFieldCoding with
  | varint => exact absurd hc hcoding
  | bigEndian =>
    simp only [packageLen,packageLenAt,hc,hload,checked_some,ok_bind,pure_eq_ok]
    exact ⟨_,rfl,rfl⟩
  | littleEndian =>
    simp only [packageLen,packageLenAt,hc,hload,checked_some,ok_bind,pure_eq_ok]
    exact ⟨_,rfl,rfl⟩

section BigEndian
variable (hbe : s.lengthFieldCoding = .bigEndian) {q r : Bytes} {fs : List Bytes}
include hbe

theorem takePackage_cut (p f q : Bytes) (h : takePackage s p = some (f,q)) : p = f ++ q := by
  obtain ⟨-,-,rfl,rfl⟩ := (takePackage_eq_some hbe).mp h
  exact (List.take_append_drop _ p).symm

/-- Within the limit, taking packages and taking allowed packages is the same. -/
theorem drains_within (hq : q.length ≤ s.packageMaxLength.toNat) :
    Drains (takePackage s) q fs r ↔ Drains (Setting.lengthField s).peel q fs r := by
  have hall : ∀ {p f q' : Bytes}, p.length ≤ s.packageMaxLength.toNat → takePackage s p = some (f,q') →
      (Setting.lengthField s).peel p = some (f,q') ∧ q'.length ≤ s.packageMaxLength.toNat := by
    intro p f q' hp htake
    have hlen := congrArg List.length (takePackage_cut hbe _ _ _ htake)
    rw [List.length_append] at hlen
    obtain ⟨-,hle,-,-⟩ := (takePackage_eq_some hbe).mp htake
    refine ⟨(Setting.peel_lengthField_eq_some hbe).mpr ⟨htake,?_⟩,by omega⟩
    rw [UInt32.le_iff_toNat_le]
    omega
  constructor <;> intro h
  · induction h with
    | wait hp => exact .wait (by simp [Setting.peel,hp])
    | take hp _ ih => exact .take (hall hq hp).1 (ih (hall hq hp).2)
  · induction h with
    | @wait p hp =>
      refine .wait (Option.eq_none_iff_forall_ne_some.mpr ?_)
      rintro ⟨f,q'⟩ htake
      exact absurd (hp.symm.trans (hall hq htake).1) (Option.some_ne_none _).symm
    | take hp _ ih =>
      have htake := ((Setting.peel_lengthField_eq_some hbe).mp hp).1
      exact .take htake (ih (hall hq htake).2)

/-- With fuel for every byte the loop does not end only on a package of length zero. -/
theorem unpackLoop_eq_none (hfuel : q.length < fuel) {len : UInt32} (h : unpackLoop s fuel q len = none) :
    ¬ Drains (takePackage s) q fs r := by
  intro hdrains
  have hlen := hdrains.length_frames (takePackage_cut hbe)
  obtain ⟨n,hloop,-⟩ : ∃ n, unpackLoop s fuel q len = some ⟨fs,r,n,false⟩ ∧ True :=
    unpackLoop_of_drains hbe hdrains (show fs.length < fuel by omega) trivial (fun _ _ _ _ => trivial)
      (fun _ => trivial)
  exact absurd (h.symm.trans hloop) (Option.some_ne_none _).symm

/-- Where the loop ends: at a package that is announced and incomplete, at an incomplete head behind
the last package, or at an incomplete head before any. -/
inductive LoopEnd (s : UnpackSetting) (q : Bytes) (len : UInt32) (u : Unpacked) : Prop where
  | package : s.bodyOffset.toNat ≤ u.remain.length → u.packageLen = announced s u.remain →
      u.remain.length < u.packageLen.toNat → LoopEnd s q len u
  | behind : u.remain.length < s.bodyOffset.toNat → u.calls ≠ [] → u.packageLen.toNat ≤ q.length → LoopEnd s q len u
  | head : u.remain.length < s.bodyOffset.toNat → u.remain = q → u.packageLen = len → LoopEnd s q len u

theorem unpackLoop_end {len : UInt32} {u : Unpacked} (h : unpackLoop s fuel q len = some u) :
    u.overLimit = false ∧ LoopEnd s q len u := by
  induction fuel generalizing q len u with
  | zero => exact absurd h (by simp [unpackLoop])
  | succ fuel ih =>
    by_cases hhead : s.bodyOffset.toNat ≤ q.length
    · by_cases hle : (announced s q).toNat ≤ q.length
      · obtain ⟨v,hv,rfl⟩ : ∃ v, unpackLoop s fuel (q.drop (announced s q).toNat) (announced s q) = some v ∧
            { v with calls := q.take (announced s q).toNat :: v.calls } = u := by
          simpa [unpackLoop,hhead,hle,packageLen_eq hbe] using h
        obtain ⟨hover,hend⟩ := ih hv
        refine ⟨hover,?_⟩
        cases hend with
        | package hhead' hn hlt => exact .package hhead' hn hlt
        | behind hlt _ hn =>
          exact .behind hlt (List.cons_ne_nil _ _) (hn.trans (by rw [List.length_drop]; omega))
        | head hlt _ hn =>
          refine .behind hlt (List.cons_ne_nil _ _) ?_
          rw [show v.packageLen = announced s q from hn]
          exact hle
      · obtain rfl : ⟨[],q,announced s q,false⟩ = u := by
          simpa [unpackLoop,hhead,hle,packageLen_eq hbe] using h
        exact ⟨rfl,.package hhead rfl (Nat.not_le.mp hle)⟩
    · obtain rfl : ⟨[],q,len,false⟩ = u := by simpa [unpackLoop,hhead] using h
      exact ⟨rfl,.head (Nat.not_le.mp hhead) rfl rfl⟩

end BigEndian

/-- The loop over the buffer is the loop over the pending bytes. -/
theorem lengthFieldLoop_eq (fuel : ℕ) (hm : T <+: m) (hcoding : s.lengthFieldCoding ≠ .varint)
    (hfield : s.lengthFieldOffset.toNat + s.lengthFieldBytes.toNat ≤ s.bodyOffset.toNat) (hp : p ≤ T.length)
    (len : UInt32) : match unpackLoop s fuel (T.drop p) len with
      | none => lengthFieldLoop s m T.length fuel p len = .error .fuel
      | some u => ∃ rest ≤ T.length, u.remain = T.drop rest ∧
        lengthFieldLoop s m T.length fuel p len = .ok ⟨⟨u.calls,rest⟩,u.packageLen,u.overLimit⟩ := by
  induction fuel generalizing p len with
  | zero => rfl
  | succ fuel ih =>
    by_cases hhead : s.bodyOffset.toNat ≤ T.length - p
    · obtain ⟨n,hn,hat⟩ := packageLenAt_eq hm hcoding hfield hhead hp
      by_cases hle : n.toNat ≤ T.length - p
      · have hpackage := load_inside hm p n.toNat (by omega)
        have hnext := ih (p := p + n.toNat) (by omega) n
        rcases hloop : unpackLoop s fuel (T.drop (p + n.toNat)) n with _ | u <;> rw [hloop] at hnext
        · have hfuel : lengthFieldLoop s m T.length fuel (p + n.toNat) n = .error .fuel := hnext
          simp [unpackLoop,lengthFieldLoop,hhead,hn,hat,hle,hpackage,hloop,hfuel]
        · obtain ⟨rest,hrest,hremain,hok⟩ := hnext
          simp only [unpackLoop,lengthFieldLoop,List.length_drop,List.drop_drop,hhead,hn,hat,hle,hpackage,hloop,hok,
            ↓reduceIte,ok_bind,checked_some,pure_eq_ok,Option.map_some]
          exact ⟨rest,hrest,hremain,rfl⟩
      · simp only [unpackLoop,lengthFieldLoop,List.length_drop,hhead,hn,hat,hle,↓reduceIte,ok_bind,pure_eq_ok]
        exact ⟨p,hp,rfl,rfl⟩
    · simp only [unpackLoop,lengthFieldLoop,List.length_drop,hhead,↓reduceIte]
      exact ⟨p,hp,rfl,rfl⟩

end FDemo.Libhv
