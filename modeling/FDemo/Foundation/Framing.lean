import Mathlib.Data.List.Basic

/-! # Cutting frames off a stream

`peel` takes one frame off the front of the pending bytes, or waits for more.
Peeling is repeated until it waits. When a frame is recognised no matter what
follows it and a part of a frame is not taken for one, a read that ends anywhere
in a stream of frames gives the frames it completes and keeps the rest.
-/
namespace FDemo
variable {β : Type*} {peel : List β → Option (List β × List β)}

/-- Frames taken off the front until `peel` waits, with what is left pending. -/
inductive Drains (peel : List β → Option (List β × List β)) : List β → List (List β) → List β → Prop where
  | wait {p : List β} : peel p = none → Drains peel p [] p
  | take {p f q : List β} {fs : List (List β)} {r : List β} : peel p = some (f,q) → Drains peel q fs r →
      Drains peel p (f :: fs) r

namespace Drains

theorem unique {p r r' : List β} {fs fs' : List (List β)} (h : Drains peel p fs r)
    (h' : Drains peel p fs' r') : fs = fs' ∧ r = r' := by
  induction h generalizing fs' with
  | wait hp =>
    cases h' with
    | wait => exact ⟨rfl,rfl⟩
    | take hp' => exact absurd (hp.symm.trans hp') (Option.some_ne_none _).symm
  | take hp _ ih =>
    cases h' with
    | wait hp' => exact absurd (hp.symm.trans hp') (Option.some_ne_none _)
    | take hp' h' =>
      obtain ⟨rfl,rfl⟩ := Prod.mk.inj (Option.some.inj (hp.symm.trans hp'))
      obtain ⟨rfl,rfl⟩ := ih h'
      exact ⟨rfl,rfl⟩

theorem waits {p r : List β} {fs : List (List β)} (h : Drains peel p fs r) : peel r = none := by
  induction h with
  | wait hp => exact hp
  | take _ _ ih => exact ih

theorem forall_mem {Q : List β → Prop} (hQ : ∀ p f q, peel p = some (f,q) → Q f) {p r : List β} {fs : List (List β)}
    (h : Drains peel p fs r) : ∀ f ∈ fs, Q f := by
  induction h with
  | wait _ => exact fun f hf => absurd hf List.not_mem_nil
  | take hp _ ih => exact List.forall_mem_cons.mpr ⟨hQ _ _ _ hp,ih⟩

section Cutting
variable (hcut : ∀ p f q, peel p = some (f,q) → p = f ++ q) {p r : List β} {fs : List (List β)}
include hcut

theorem flatten (h : Drains peel p fs r) : p = fs.flatten ++ r := by
  induction h with
  | wait _ => rfl
  | take hp _ ih => rw [List.flatten_cons,List.append_assoc,← ih,← hcut _ _ _ hp]

/-- Draining that ends never takes an empty frame, which would be there again. -/
theorem nil_not_mem (h : Drains peel p fs r) : [] ∉ fs := by
  have hstuck : ∀ {p r : List β} {fs : List (List β)}, Drains peel p fs r → peel p ≠ some ([],p) := by
    intro p r fs h
    induction h with
    | wait hp => exact fun hnil => absurd (hp.symm.trans hnil) (Option.some_ne_none _).symm
    | take hp _ ih =>
      intro hnil
      obtain ⟨rfl,rfl⟩ := Prod.mk.inj (Option.some.inj (hp.symm.trans hnil))
      exact ih hnil
  induction h with
  | wait _ => exact List.not_mem_nil
  | @take p f q fs r hp hd ih =>
    rintro (_ | ⟨_,hmem⟩)
    · obtain rfl : p = q := hcut _ _ _ hp
      exact hstuck (.take hp hd) hp
    · exact ih hmem

theorem length_frames (h : Drains peel p fs r) : fs.length + r.length ≤ p.length := by
  induction h with
  | wait _ => simp
  | @take p f q fs r hp hd ih =>
    have hnil := nil_not_mem hcut (.take hp hd)
    have hpos := List.length_pos_of_ne_nil fun h0 : f = [] => hnil (h0 ▸ List.mem_cons_self)
    rw [hcut _ _ _ hp,List.length_append,List.length_cons]
    omega

end Cutting
end Drains

/-- Frames for the payloads in `valid`. -/
structure Framing (peel : List β → Option (List β × List β)) (encode : List β → List β)
    (valid : List β → Prop) : Prop where
  /-- A frame is recognised whatever follows it. -/
  peel_encode : ∀ x y, valid x → peel (encode x ++ y) = some (encode x,y)
  /-- A part of a frame is waited for. -/
  peel_part : ∀ x p q, valid x → encode x = p ++ q → q ≠ [] → peel p = none
  peel_nil : peel [] = none

namespace Framing
variable {encode : List β → List β} {valid : List β → Prop} (h : Framing peel encode valid)
include h

/-- A read gives the frames it completes and keeps the beginning of the next one. -/
theorem drains_split {xs : List (List β)} (hxs : ∀ x ∈ xs, valid x) {a b : List β}
    (hab : (xs.map encode).flatten = a ++ b) : ∃ ys zs r, xs = ys ++ zs ∧ Drains peel a (ys.map encode) r ∧
      (zs.map encode).flatten = r ++ b := by
  induction xs generalizing a with
  | nil =>
    obtain ⟨rfl,rfl⟩ := List.append_eq_nil_iff.mp hab.symm
    exact ⟨[],[],[],rfl,.wait h.peel_nil,rfl⟩
  | cons x xs ih =>
    have hx := hxs x List.mem_cons_self
    rw [List.map_cons,List.flatten_cons] at hab
    have htake : ∀ a', a = encode x ++ a' → (xs.map encode).flatten = a' ++ b → ∃ ys zs r, x :: xs = ys ++ zs ∧
        Drains peel a (ys.map encode) r ∧ (zs.map encode).flatten = r ++ b := by
      rintro a' rfl ha'
      obtain ⟨ys,zs,r,rfl,hd,hr⟩ := ih (fun y hy => hxs y (List.mem_cons_of_mem x hy)) ha'
      exact ⟨x :: ys,zs,r,rfl,.take (h.peel_encode x a' hx) hd,hr⟩
    rcases List.append_eq_append_iff.mp hab with ⟨a',ha,hrest⟩ | ⟨b',hx',hrest⟩
    · exact htake a' ha hrest
    · by_cases hb : b' = []
      · subst hb
        exact htake [] (by simpa using hx'.symm) (by simpa using hrest.symm)
      · refine ⟨[],x :: xs,a,rfl,.wait (h.peel_part x a b' hx hx' hb),?_⟩
        rw [List.map_cons,List.flatten_cons,hx',List.append_assoc,hrest]

end Framing

/-- Peeling with a limit: a frame is recognised whatever follows it, and `exceeds` says when no frame
can begin here any more, whatever follows. -/
structure Limited (peel : List β → Option (List β × List β)) (exceeds : List β → Prop) : Prop where
  peel_append : ∀ p f q y, peel p = some (f,q) → peel (p ++ y) = some (f,q ++ y)
  exceeds_peel : ∀ p, exceeds p → peel p = none
  exceeds_append : ∀ p y, exceeds p → exceeds (p ++ y)

/-- What a reader handed out of the bytes `p` it was given, and what it keeps of them. It keeps
nothing once it has given up. -/
inductive Reads (peel : List β → Option (List β × List β)) (exceeds : List β → Prop) (p : List β) (fs : List (List β)) :
    Option (List β) → Prop where
  | pending {r : List β} : Drains peel p fs r → ¬ exceeds r → Reads peel exceeds p fs (some r)
  | gaveUp {r : List β} : Drains peel p fs r → exceeds r → Reads peel exceeds p fs none

theorem Reads.drains {exceeds : List β → Prop} {p : List β} {fs : List (List β)} {o : Option (List β)}
    (h : Reads peel exceeds p fs o) : ∃ r, Drains peel p fs r := by
  cases h with
  | pending hd _ => exact ⟨_,hd⟩
  | gaveUp hd _ => exact ⟨_,hd⟩

theorem Reads.unique {exceeds : List β → Prop} {p : List β} {fs fs' : List (List β)} {o o' : Option (List β)}
    (h : Reads peel exceeds p fs o) (h' : Reads peel exceeds p fs' o') : fs = fs' ∧ o = o' := by
  cases h with
  | pending hd ho =>
    cases h' with
    | pending hd' _ =>
      obtain ⟨rfl,rfl⟩ := hd.unique hd'
      exact ⟨rfl,rfl⟩
    | gaveUp hd' ho' => exact absurd ((hd.unique hd').2 ▸ ho') ho
  | gaveUp hd ho =>
    cases h' with
    | pending hd' ho' => exact absurd ((hd.unique hd').2 ▸ ho) ho'
    | gaveUp hd' _ => exact ⟨(hd.unique hd').1,rfl⟩

namespace Limited
variable {exceeds : List β → Prop} (h : Limited peel exceeds) {p r y : List β} {fs gs : List (List β)}
  {o : Option (List β)}
include h

theorem drains_append {t : List β} (hp : Drains peel p fs r) (hr : Drains peel (r ++ y) gs t) :
    Drains peel (p ++ y) (fs ++ gs) t := by
  induction hp with
  | wait _ => exact hr
  | take hpeel _ ih => exact .take (h.peel_append _ _ _ y hpeel) (ih hr)

/-- Bytes that can be drained can be drained from where an earlier read stopped. -/
theorem drains_rest {t : List β} (hp : Drains peel p fs r) (hpy : Drains peel (p ++ y) gs t) :
    ∃ hs, Drains peel (r ++ y) hs t := by
  induction hp generalizing gs with
  | wait _ => exact ⟨gs,hpy⟩
  | take hpeel _ ih =>
    cases hpy with
    | wait hwait => exact absurd (hwait.symm.trans (h.peel_append _ _ _ y hpeel)) (Option.some_ne_none _).symm
    | take htake hrest =>
      obtain ⟨rfl,rfl⟩ := Prod.mk.inj (Option.some.inj ((h.peel_append _ _ _ y hpeel).symm.trans htake))
      exact ih hrest

/-- What can be drained can be drained up to any point. -/
theorem drains_prefix {t : List β} (hpy : Drains peel (p ++ y) gs t) : ∃ fs r, Drains peel p fs r := by
  obtain ⟨s,hs⟩ : ∃ s, s = p ++ y := ⟨_,rfl⟩
  rw [← hs] at hpy
  induction hpy generalizing p with
  | @wait s hwait =>
    subst hs
    refine ⟨[],p,.wait (Option.eq_none_iff_forall_ne_some.mpr ?_)⟩
    rintro ⟨f,q⟩ hpeel
    exact absurd (hwait.symm.trans (h.peel_append _ _ _ y hpeel)) (Option.some_ne_none _).symm
  | @take s f q fs r hpeel _ ih =>
    subst hs
    rcases hp : peel p with _ | ⟨f',q'⟩
    · exact ⟨[],p,.wait hp⟩
    · obtain ⟨rfl,rfl⟩ := Prod.mk.inj (Option.some.inj ((h.peel_append _ _ _ y hp).symm.trans hpeel))
      obtain ⟨fs',r',hd⟩ := ih rfl
      exact ⟨_,r',.take hp hd⟩

/-- A further read goes on with the bytes kept. -/
theorem reads_more (hp : Reads peel exceeds p fs (some r)) (hr : Reads peel exceeds (r ++ y) gs o) :
    Reads peel exceeds (p ++ y) (fs ++ gs) o := by
  cases hp with
  | pending hd _ =>
    cases hr with
    | pending hd' ho => exact .pending (h.drains_append hd hd') ho
    | gaveUp hd' ho => exact .gaveUp (h.drains_append hd hd') ho

/-- A reader that has given up misses nothing. -/
theorem reads_ignore (hp : Reads peel exceeds p fs none) (y : List β) : Reads peel exceeds (p ++ y) fs none := by
  cases hp with
  | gaveUp hd ho =>
    have ho' := h.exceeds_append _ y ho
    have happ := h.drains_append hd (.wait (h.exceeds_peel _ ho'))
    rw [List.append_nil] at happ
    exact .gaveUp happ ho'

/-- A reader that has read everything or has given up. -/
theorem reads_all (hp : Reads peel exceeds p fs o) (hy : o ≠ none → y = []) : Reads peel exceeds (p ++ y) fs o := by
  cases o with
  | none => exact h.reads_ignore hp y
  | some r =>
    rw [hy (Option.some_ne_none r),List.append_nil]
    exact hp

end Limited
end FDemo
