import Mathlib.Data.Finmap
import Mathlib.Data.Finset.Sort

/-! # Concatenating a finite map of lists in key order

A list of keys reads a map of lists by appending the entries found. Two sorted
lists of keys read the same as soon as they agree on the keys whose entry is
not empty, and a shorter reading is a smaller one: the lengths tell which keys
were left out.
-/
namespace FDemo
variable {κ α : Type*}

section FlatMap
variable (f : κ → List α)

theorem flatMap_filter_support (l : List κ) : (l.filter fun k => !(f k).isEmpty).flatMap f = l.flatMap f := by
  induction l with
  | nil => rfl
  | cons k l ih =>
    cases hk : f k with
    | nil => rw [List.filter_cons_of_neg (by simp [hk]),ih,List.flatMap_cons,hk,List.nil_append]
    | cons a as => rw [List.filter_cons_of_pos (by simp [hk]),List.flatMap_cons,List.flatMap_cons,ih]

/-- One letter from each key gives a word of one letter only if it comes from all of them. -/
theorem flatMap_eq_replicate {l : List κ} {n : ℕ} {a : α} (hf : ∀ k ∈ l, (f k).length = 1)
    (h : l.flatMap f = List.replicate n a) : l.length = n ∧ ∀ k ∈ l, f k = [a] := by
  have hall : ∀ k ∈ l, f k = [a] := by
    intro k hk
    obtain ⟨b,hb⟩ := List.length_eq_one_iff.mp (hf k hk)
    have hmem : b ∈ l.flatMap f := List.mem_flatMap.mpr ⟨k,hk,by rw [hb]; exact List.mem_singleton.mpr rfl⟩
    rw [h] at hmem
    rw [hb,List.eq_of_mem_replicate hmem]
  refine ⟨?_,hall⟩
  have hlen := congrArg List.length h
  rw [List.length_flatMap,List.map_congr_left hf,List.length_replicate] at hlen
  simpa using hlen

theorem flatMap_congr_support [LinearOrder κ] {l₁ l₂ : List κ} (h₁ : l₁.Pairwise (· < ·))
    (h₂ : l₂.Pairwise (· < ·)) (h : ∀ k, f k ≠ [] → (k ∈ l₁ ↔ k ∈ l₂)) : l₁.flatMap f = l₂.flatMap f := by
  rw [← flatMap_filter_support f l₁,← flatMap_filter_support f l₂]
  congr 1
  have hp : (l₁.filter fun k => !(f k).isEmpty).Perm (l₂.filter fun k => !(f k).isEmpty) := by
    refine (List.perm_ext_iff_of_nodup ((h₁.imp ne_of_lt).filter _) ((h₂.imp ne_of_lt).filter _)).mpr ?_
    intro k
    by_cases hk : f k = []
    · simp [hk]
    · simp [hk,h k hk]
  exact hp.eq_of_pairwise (fun _ _ _ _ hab hba => absurd hab (lt_asymm hba)) (h₁.filter _) (h₂.filter _)

section Subreading
variable [LinearOrder κ] {l₁ l₂ : List κ} (h₁ : l₁.Pairwise (· < ·)) (h₂ : l₂.Pairwise (· < ·))
  (hsub : ∀ k ∈ l₁, f k ≠ [] → k ∈ l₂)

include h₁ h₂ hsub

theorem flatMap_eq_filter_support : l₁.flatMap f = (l₂.filter fun k => decide (k ∈ l₁)).flatMap f :=
  flatMap_congr_support f h₁ (h₂.filter _) (fun k hk => by simpa using fun h => hsub k h hk)

theorem length_flatMap_le_support : (l₁.flatMap f).length ≤ (l₂.flatMap f).length := by
  rw [flatMap_eq_filter_support f h₁ h₂ hsub]
  exact (List.filter_sublist.flatMap f).length_le

/-- A reading that may leave keys out is complete exactly when it leaves out only empty entries. -/
theorem flatMap_eq_iff_support : l₁.flatMap f = l₂.flatMap f ↔ ∀ k ∈ l₂, f k ≠ [] → k ∈ l₁ := by
  constructor
  · intro heq k hk hne
    by_contra hk₁
    have hlt : ((l₂.filter fun j => decide (j ∈ l₁)).flatMap f).length < (l₂.flatMap f).length := by
      obtain ⟨xs,ys,rfl⟩ := List.append_of_mem hk
      have hx : ∀ zs : List κ, ((zs.filter fun j => decide (j ∈ l₁)).flatMap f).length ≤ (zs.flatMap f).length :=
        fun zs => (List.filter_sublist.flatMap f).length_le
      have hpos : 0 < (f k).length := List.length_pos_of_ne_nil hne
      rw [List.filter_append,List.filter_cons_of_neg (by simpa using hk₁)]
      simp only [List.flatMap_append,List.flatMap_cons,List.length_append]
      have := hx xs
      have := hx ys
      omega
    rw [← flatMap_eq_filter_support f h₁ h₂ hsub,heq] at hlt
    exact lt_irrefl _ hlt
  · intro h
    exact flatMap_congr_support f h₁ h₂ (fun k hk => ⟨fun hm => hsub k hm hk,fun hm => h k hm hk⟩)

end Subreading
end FlatMap

section Map
variable [DecidableEq κ]

def entryOr (m : Finmap fun _ : κ => List α) (k : κ) : List α := (m.lookup k).getD []

theorem mem_of_entryOr_ne_nil {m : Finmap fun _ : κ => List α} {k : κ} (h : entryOr m k ≠ []) : k ∈ m := by
  by_contra hk
  exact h (by simp [entryOr,Finmap.lookup_eq_none.mpr hk])

@[simp] theorem keys_insert (m : Finmap fun _ : κ => α) (k : κ) (v : α) :
    (m.insert k v).keys = insert k m.keys := by
  ext j
  simp [Finmap.mem_keys,Finmap.mem_insert]

/-- All entries in increasing key order. -/
def concat [LinearOrder κ] (m : Finmap fun _ : κ => List α) : List α := m.keys.sort.flatMap (entryOr m)

end Map
end FDemo
