import FDemo.MapModel.MapPointListModel
import Mathlib.Order.Basic

/-! # The list model as a store

A cell is a row under a role. Writing a cell and reading cells fit together on
every row that exists: the cell reads as the converted value, no other cell
changes, and observers hear of it exactly when something changed. A row past the
end reads as invalid, while writing it is an access outside the list.
-/
namespace FDemo.MapModel.MapPointListModel
variable {ν ρ : Type*} [QVariant ν]

/-- A value converted to the type of a writable role. -/
def converted (value : ν) (role : ℤ) : Option ν :=
  if role = nameRole then some (QVariant.ofString (QVariant.toString value))
  else if role = indexRole then some (QVariant.ofInt (QVariant.toInt value))
  else none

/-- The cell holds `v`, all others are as before, and the call returns true and announces the cell
once exactly when it held something else. -/
structure Stored (points : List (MapPoint ρ)) (row : ℕ) (role : ℤ) (v : ν) (o : Outcome ρ) : Prop where
  read : data o.points (index row 0 {}) role = v
  frame : ∀ r role' : ℤ, (r,role') ≠ (↑row,role) →
    (data o.points (index r 0 {}) role' : ν) = data points (index r 0 {}) role'
  returned : o.returned = true ↔ data points (index row 0 {}) role ≠ v
  announced : o.announced = if o.returned then [(.dataChanged (index row 0 {}) role,o.points)] else []

def ConsistentStore (points : List (MapPoint ρ)) (row : ℕ) (role : ℤ) (value : ν) : Prop :=
  ∃ o, setData points (index row 0 {}) value role = some o ∧
    match if rowCount points ≤ row then none else converted value role with
    | none => o = { points := points, returned := false }
    | some v => Stored points row role v o

theorem setData_natCast (points : List (MapPoint ρ)) (row : ℕ) (value : ν) (role : ℤ) :
    setData points (createIndex row 0) value role = points[row]?.map fun point =>
      if role = nameRole then
        if point.name ≠ QVariant.toString value then
          notify points (createIndex row 0) role { point with name := QVariant.toString value }
        else { points := points, returned := false }
      else if role = indexRole then
        if point.index ≠ QVariant.toInt value then
          notify points (createIndex row 0) role { point with index := QVariant.toInt value }
        else { points := points, returned := false }
      else { points := points, returned := false } := by
  unfold setData
  rw [if_pos (isValid_createIndex.mpr (Int.natCast_nonneg row)),createIndex_row,item_natCast]

theorem ofString_injective {s t : QString} (h : (QVariant.ofString s : ν) = QVariant.ofString t) : s = t := by
  rw [← QVariant.toString_ofString (ν := ν) s,h,QVariant.toString_ofString]

theorem ofInt_injective {m n : Int32} (h : (QVariant.ofInt m : ν) = QVariant.ofInt n) : m = n := by
  rw [← QVariant.toInt_ofInt (ν := ν) m,h,QVariant.toInt_ofInt]

section Row
variable {points : List (MapPoint ρ)} {row : ℕ} {point : MapPoint ρ} (hpoint : points[row]? = some point)
include hpoint

theorem data_of_getElem? (role : ℤ) :
    (data points (createIndex row 0) role : ν) = roleData point role := by
  rw [data_natCast,hpoint]
  rfl

theorem data_set (point' : MapPoint ρ) (r role : ℤ) : (data (points.set row point') (createIndex r 0) role : ν) =
    if r = row then roleData point' role else data points (createIndex r 0) role := by
  have hlt : row < points.length := (List.getElem?_eq_some_iff.mp hpoint).1
  rw [data_eq,data_eq]
  by_cases hr : r = row
  · subst hr
    rw [if_pos (Int.natCast_nonneg row),if_pos rfl,Int.toNat_natCast,List.getElem?_set_self hlt]
    rfl
  · by_cases h0 : 0 ≤ r
    · simp only [if_pos h0,if_neg hr]
      rw [List.getElem?_set_ne (by omega)]
    · simp only [if_neg h0,if_neg hr]

theorem stored_notify {point' : MapPoint ρ} {role : ℤ} {v : ν} (hread : roleData point' role = v)
    (hframe : ∀ role', role' ≠ role → (roleData point' role' : ν) = roleData point role')
    (hne : roleData point role ≠ v) : Stored points row role v (notify points (createIndex row 0) role point') where
  read := by
    rw [index_eq]
    exact (data_set hpoint point' row role).trans ((if_pos rfl).trans hread)
  frame r role' hcell := by
    rw [index_eq,show (notify points (createIndex row 0) role point').points = points.set row point' from rfl,
      data_set hpoint]
    split
    · rename_i hr
      subst hr
      rw [data_of_getElem? hpoint]
      exact hframe role' (fun h => hcell (by rw [h]))
    · rfl
  returned := by
    rw [index_eq,data_of_getElem? hpoint]
    exact iff_of_true rfl hne
  announced := by
    rw [index_eq]
    rfl

theorem stored_unchanged {role : ℤ} {v : ν} (heq : roleData point role = v) :
    Stored points row role v { points := points, returned := false } where
  read := by
    rw [index_eq]
    exact (data_of_getElem? hpoint role).trans heq
  frame _ _ _ := rfl
  returned := by
    rw [index_eq,data_of_getElem? hpoint]
    exact iff_of_false Bool.false_ne_true (fun h => h heq)
  announced := rfl

/-- On a row that exists every role is a consistent store. -/
theorem consistentStore_of_getElem? (role : ℤ) (value : ν) : ConsistentStore points row role value := by
  have hlt : row < points.length := (List.getElem?_eq_some_iff.mp hpoint).1
  have hin : ¬ rowCount points ≤ row := by
    unfold rowCount QList.count
    omega
  refine ⟨_,by rw [index_eq,setData_natCast,hpoint,Option.map_some],?_⟩
  rw [if_neg hin]
  unfold converted
  by_cases hname : role = nameRole
  · rw [if_pos hname,if_pos hname]
    have hroles : ∀ p : MapPoint ρ, (roleData p role : ν) = QVariant.ofString p.name := fun p => if_pos hname
    by_cases hne : point.name ≠ QVariant.toString value
    · rw [if_pos hne]
      refine stored_notify hpoint (hroles _) (fun role' hrole' => ?_) ?_
      · have hother : role' ≠ nameRole := fun h => hrole' (h.trans hname.symm)
        simp [roleData,hother]
      · rw [hroles]
        exact fun h => hne (ofString_injective h)
    · rw [if_neg hne]
      exact stored_unchanged hpoint ((hroles point).trans (by rw [not_not.mp hne]))
  · rw [if_neg hname,if_neg hname]
    by_cases hindex : role = indexRole
    · rw [if_pos hindex,if_pos hindex]
      have hroles : ∀ p : MapPoint ρ, (roleData p role : ν) = QVariant.ofInt p.index :=
        fun p => (if_neg hname).trans (if_pos hindex)
      by_cases hne : point.index ≠ QVariant.toInt value
      · rw [if_pos hne]
        refine stored_notify hpoint (hroles _) (fun role' hrole' => ?_) ?_
        · have hother : role' ≠ indexRole := fun h => hrole' (h.trans hindex.symm)
          simp [roleData,hother]
        · rw [hroles]
          exact fun h => hne (ofInt_injective h)
      · rw [if_neg hne]
        exact stored_unchanged hpoint ((hroles point).trans (by rw [not_not.mp hne]))
    · rw [if_neg hindex,if_neg hindex]

end Row

/-- Writing and reading are consistent exactly on the rows that exist. -/
theorem consistentStore_iff (points : List (MapPoint ρ)) (row : ℕ) (role : ℤ) (value : ν) :
    ConsistentStore points row role value ↔ row < rowCount points := by
  constructor
  · rintro ⟨o,hset,-⟩
    by_contra hge
    have hnone : points[row]? = none := List.getElem?_eq_none (by unfold rowCount QList.count at hge; omega)
    rw [index_eq,setData_natCast,hnone] at hset
    exact absurd hset (Option.some_ne_none o).symm
  · intro hlt
    have hrow : row < points.length := by
      unfold rowCount QList.count at hlt
      omega
    exact consistentStore_of_getElem? (List.getElem?_eq_getElem hrow) role value

/-- The role that views paint is not writable, and still a row past the end is written to. -/
theorem setData_past_end : ¬ ∀ (points : List (MapPoint Unit)) (row : ℕ) (role : ℤ) (value : PlainVariant),
    ConsistentStore points row role value := by
  intro h
  obtain ⟨o,hset,-⟩ := h [] 0 isErrorRole .invalid
  rw [index_eq,setData_natCast] at hset
  cases hset

end FDemo.MapModel.MapPointListModel
