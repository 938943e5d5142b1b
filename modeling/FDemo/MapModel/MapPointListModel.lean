import FDemo.Foundation.ListEdit
import Mathlib.Algebra.Ring.Int.Defs

/-! # The list model of the map points

`MapPointListModel` shows a `QList` of points under three roles. Every call is a
function to what it leaves behind: the points, the announcements that left the
model with the points as they were at that moment, and the value returned. A
`QList` access outside its documented range and the overflow of an `int` have no
result.
-/
namespace FDemo.MapModel

/-- UTF-16 code units. -/
abbrev QString := List UInt16

/-- What the models use of `QVariant`. -/
class QVariant (ν : Type*) where
  invalid : ν
  ofString : QString → ν
  ofInt : Int32 → ν
  toString : ν → QString
  toInt : ν → Int32
  toString_ofString : ∀ s, toString (ofString s) = s
  toInt_ofInt : ∀ n, toInt (ofInt n) = n

/-- The values that the models themselves produce; no text here is a numeral. -/
inductive PlainVariant where
  | invalid
  | text (s : QString)
  | number (n : Int32)
  deriving DecidableEq

instance plainVariant : QVariant PlainVariant where
  invalid := .invalid
  ofString := .text
  ofInt := .number
  toString
    | .text s => s
    | .number n => (toString n.toInt).toList.map fun c => c.toNat.toUInt16
    | .invalid => []
  toInt
    | .number n => n
    | _ => 0
  toString_ofString _ := rfl
  toInt_ofInt _ := rfl

/-- `MapPoint()` is the default value; `rest` are the members that neither model reads. -/
structure MapPoint (ρ : Type*) where
  name : QString := []
  index : Int32 := 0
  typeID : Int32 := 0
  isError : Int32 := 0
  rest : ρ
  deriving DecidableEq

instance inhabitedMapPoint {ρ : Type*} [Inhabited ρ] : Inhabited (MapPoint ρ) := ⟨{ rest := default }⟩

namespace QList
variable {α : Type*}

def count (l : List α) : ℤ := l.length

/-- `at(i)` and `operator[](i)` -/
def item (l : List α) (i : ℤ) : Option α := if 0 ≤ i then l[i.toNat]? else none

def insert (l : List α) (i : ℤ) (a : α) : Option (List α) :=
  if 0 ≤ i ∧ i ≤ count l then some (l.insertIdx i.toNat a) else none

def removeAt (l : List α) (i : ℤ) : Option (List α) :=
  if 0 ≤ i ∧ i < count l then some (l.eraseIdx i.toNat) else none

theorem item_eq_some_iff {l : List α} {i : ℤ} {a : α} : item l i = some a ↔ 0 ≤ i ∧ l[i.toNat]? = some a := by
  unfold item
  exact Option.ite_none_right_eq_some

theorem insert_eq_some_iff {l l' : List α} {i : ℤ} {a : α} : insert l i a = some l' ↔
    (0 ≤ i ∧ i ≤ count l) ∧ l' = l.insertIdx i.toNat a := by
  unfold insert
  rw [Option.ite_none_right_eq_some,Option.some_inj,eq_comm]

theorem removeAt_eq_some_iff {l l' : List α} {i : ℤ} : removeAt l i = some l' ↔
    (0 ≤ i ∧ i < count l) ∧ l' = l.eraseIdx i.toNat := by
  unfold removeAt
  rw [Option.ite_none_right_eq_some,Option.some_inj,eq_comm]

end QList

structure QModelIndex where
  row : ℤ := -1
  column : ℤ := -1
  /-- whether a model created the index -/
  created : Bool := false
  deriving DecidableEq

def QModelIndex.isValid (i : QModelIndex) : Prop := 0 ≤ i.row ∧ 0 ≤ i.column ∧ i.created = true

instance decidableIsValid (i : QModelIndex) : Decidable i.isValid := inferInstanceAs (Decidable (_ ∧ _))

def userRole : ℤ := 256
def editRole : ℤ := 2
def nameRole : ℤ := userRole + 1
def indexRole : ℤ := userRole + 2
def isErrorRole : ℤ := userRole + 5

/-- The signals of a model that its observers follow. -/
inductive Announcement where
  /-- `beginInsertRows(first, last)` and `endInsertRows()` -/
  | inserted (first last : ℤ)
  /-- `beginRemoveRows(first, last)` and `endRemoveRows()` -/
  | removed (first last : ℤ)
  /-- `dataChanged(index, index, {role})` -/
  | dataChanged (index : QModelIndex) (role : ℤ)
  deriving DecidableEq

/-- What a call leaves behind; each announcement comes with the points as an observer finds them. -/
structure Outcome (ρ : Type*) where
  points : List (MapPoint ρ)
  announced : List (Announcement × List (MapPoint ρ)) := []
  returned : Bool
  deriving DecidableEq

namespace MapPointListModel
variable {ν ρ : Type*} [QVariant ν] [Inhabited ρ]

def rowCount (points : List (MapPoint ρ)) : ℤ := QList.count points

def createIndex (row column : ℤ) : QModelIndex := ⟨row,column,true⟩

def index (row column : ℤ) (parent : QModelIndex) : QModelIndex :=
  if parent.isValid ∨ column ≠ 0 then {} else createIndex row column

def roleData (point : MapPoint ρ) (role : ℤ) : ν :=
  if role = nameRole then QVariant.ofString point.name
  else if role = indexRole then QVariant.ofInt point.index
  else if role = isErrorRole then QVariant.ofInt point.isError
  else QVariant.invalid

/-- The bounds are checked first, so that `at` always has a result. -/
def data (points : List (MapPoint ρ)) (index : QModelIndex) (role : ℤ) : ν :=
  if ¬ index.isValid ∨ index.row < 0 ∨ rowCount points ≤ index.row then QVariant.invalid
  else (QList.item points index.row).elim QVariant.invalid fun point => roleData point role

/-- `emit dataChanged(index, index, {role}); return true` once the point is changed. -/
def notify (points : List (MapPoint ρ)) (index : QModelIndex) (role : ℤ) (point : MapPoint ρ) : Outcome ρ :=
  let points := points.set index.row.toNat point
  { points := points, announced := [(.dataChanged index role,points)], returned := true }

def setData (points : List (MapPoint ρ)) (index : QModelIndex) (value : ν) (role : ℤ) : Option (Outcome ρ) :=
  if index.isValid then
    -- the reference is taken before the role is looked at, and without a look at the size
    (QList.item points index.row).map fun point =>
      if role = nameRole then
        if point.name ≠ QVariant.toString value then
          notify points index role { point with name := QVariant.toString value }
        else { points := points, returned := false }
      else if role = indexRole then
        if point.index ≠ QVariant.toInt value then
          notify points index role { point with index := QVariant.toInt value }
        else { points := points, returned := false }
      else { points := points, returned := false }
  else some { points := points, returned := false }

/-- `for (int row = 0; row < rows; ++row) model->insert(position, MapPoint())` -/
def insertLoop (position : ℤ) : ℕ → List (MapPoint ρ) → Option (List (MapPoint ρ))
  | 0, points => some points
  | rows + 1, points => (QList.insert points position default).bind (insertLoop position rows)

/-- `insertRows` where `position + rows - 1` does not overflow. So it is for the one row that `append` and
the proxy model ask for: its last row is its first, and no `QList` is longer than an `int` can tell. -/
def insertRange (points : List (MapPoint ρ)) (position rows : ℤ) : Option (Outcome ρ) :=
  (insertLoop position rows.toNat points).map fun points =>
    { points := points, announced := [(.inserted position (position + rows - 1),points)], returned := true }

def removeLoop (position : ℤ) : ℕ → List (MapPoint ρ) → Option (List (MapPoint ρ))
  | 0, points => some points
  | rows + 1, points => (QList.removeAt points position).bind (removeLoop position rows)

/-- `removeRows` where `position + rows - 1` does not overflow. -/
def removeRange (points : List (MapPoint ρ)) (position rows : ℤ) : Option (Outcome ρ) :=
  (removeLoop position rows.toNat points).map fun points =>
    { points := points, announced := [(.removed position (position + rows - 1),points)], returned := true }

/-- Neither `position + rows` nor `position + rows - 1` overflows. -/
def SumFits (position rows : Int32) : Prop :=
  -2 ^ 31 < position.toInt + rows.toInt ∧ position.toInt + rows.toInt < 2 ^ 31

instance decidableSumFits (position rows : Int32) : Decidable (SumFits position rows) := inferInstanceAs (Decidable (_ ∧ _))

/-- The overflow of an `int` has no result. -/
def insertRows (points : List (MapPoint ρ)) (position rows : Int32) : Option (Outcome ρ) :=
  if SumFits position rows then insertRange points position.toInt rows.toInt else none

def removeRows (points : List (MapPoint ρ)) (position rows : Int32) : Option (Outcome ρ) :=
  if SumFits position rows then removeRange points position.toInt rows.toInt else none

theorem insertRows_eq_some_iff {points : List (MapPoint ρ)} {position rows : Int32} {o : Outcome ρ} :
    insertRows points position rows = some o ↔
      SumFits position rows ∧ insertRange points position.toInt rows.toInt = some o := Option.ite_none_right_eq_some

omit [Inhabited ρ] in
theorem removeRows_eq_some_iff {points : List (MapPoint ρ)} {position rows : Int32} {o : Outcome ρ} :
    removeRows points position rows = some o ↔
      SumFits position rows ∧ removeRange points position.toInt rows.toInt = some o := Option.ite_none_right_eq_some

/-- `append` is `void`; what `insertRows` and `setData` return is dropped. -/
def append (ν : Type*) [QVariant ν] (points : List (MapPoint ρ)) (name : QString) : Option (Outcome ρ) := do
  let position := rowCount points
  let inserted ← insertRange points position 1
  let named ← setData inserted.points (createIndex position 0) (QVariant.ofString name : ν) nameRole
  let indexed ← setData named.points (createIndex position 0)
    (QVariant.ofInt (Int32.ofInt (position % 2)) : ν) indexRole
  return {
    points := indexed.points
    announced := inserted.announced ++ named.announced ++ indexed.announced
    returned := true }

section Reading
variable (points : List (MapPoint ρ))

theorem item_eq {α : Type*} (l : List α) {i : ℤ} (h : 0 ≤ i) : QList.item l i = l[i.toNat]? := if_pos h

@[simp] theorem item_natCast {α : Type*} (l : List α) (i : ℕ) : QList.item l i = l[i]? := by
  rw [item_eq l (Int.natCast_nonneg i),Int.toNat_natCast]

theorem isValid_index {row : ℤ} : (index row 0 {}).isValid ↔ 0 ≤ row := by
  simp [index,createIndex,QModelIndex.isValid]

@[simp] theorem index_eq (row : ℤ) : index row 0 {} = createIndex row 0 := by
  simp [index,QModelIndex.isValid]

@[simp] theorem isValid_createIndex {row : ℤ} : (createIndex row 0).isValid ↔ 0 ≤ row := by
  rw [← index_eq,isValid_index]

@[simp] theorem createIndex_row (row : ℤ) : (createIndex row 0).row = row := rfl

omit [Inhabited ρ] in
theorem data_eq (role row : ℤ) : (data points (createIndex row 0) role : ν) =
    (if 0 ≤ row then points[row.toNat]? else none).elim QVariant.invalid fun point => roleData point role := by
  unfold data rowCount QList.count
  by_cases hrow : 0 ≤ row
  · by_cases hlt : row < points.length
    · rw [if_neg (by simp; omega),createIndex_row,item_eq _ hrow,if_pos hrow]
    · have hnone : points[row.toNat]? = none := List.getElem?_eq_none (by omega)
      rw [if_pos (by simp; omega),if_pos hrow,hnone]
      rfl
  · rw [if_pos (by simp; omega),if_neg hrow]
    rfl

omit [Inhabited ρ] in
theorem data_natCast (role : ℤ) (row : ℕ) : (data points (createIndex row 0) role : ν) =
    points[row]?.elim QVariant.invalid fun point => roleData point role := by
  rw [data_eq,if_pos (Int.natCast_nonneg row),Int.toNat_natCast]

end Reading
end MapPointListModel
end FDemo.MapModel
