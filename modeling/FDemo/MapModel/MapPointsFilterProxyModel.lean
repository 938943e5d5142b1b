import FDemo.MapModel.Observer
import Mathlib.Algebra.Ring.Int.Defs

/-! # The filter proxy over the list model

`QSortFilterProxyModel` is not part of the repository. Unsorted, its rows are the
accepted source rows in source order, and it announces by itself, once, which
accepted rows come and go with the source and with the filter. The functions of
`MapPointsFilterProxyModel` stand on top of it.
-/
namespace FDemo.MapModel
open MapPointListModel

/-- The change of a row count that an announcement tells. -/
def Announcement.net : Announcement → ℤ
  | inserted first last => last + 1 - first
  | removed first last => -(last + 1 - first)
  | dataChanged _ _ => 0

def net (as : List Announcement) : ℤ := (as.map Announcement.net).sum

/-- How many of the rows `first..last` are accepted. -/
def acceptedIn (accepts : ℤ → Bool) (first last : ℤ) : ℤ :=
  ((List.range (last + 1 - first).toNat).countP fun i : ℕ => accepts (first + i) : ℕ)

/-- What the proxy of Qt announces by itself, told which source rows are accepted before and after. -/
structure QSortFilterProxyModel where
  sourceChanged : Announcement → (before after : ℤ → Bool) → List Announcement
  invalidateFilter : (count : ℤ) → (before after : ℤ → Bool) → List Announcement
  inserted_once : ∀ first last before after,
    net (sourceChanged (.inserted first last) before after) = acceptedIn after first last
  removed_once : ∀ first last before after,
    net (sourceChanged (.removed first last) before after) = -acceptedIn before first last
  refiltered_once : ∀ count before after, net (invalidateFilter count before after) =
    acceptedIn after 0 (count - 1) - acceptedIn before 0 (count - 1)

/-- A row that is asked again comes, goes or stays; the rows before it have been asked already. -/
def recheck (before after : ℤ → Bool) (row : ℤ) : List Announcement :=
  let k := acceptedIn after 0 (row - 1)
  match before row,after row with
  | true,false => [.removed k k]
  | false,true => [.inserted k k]
  | _,_ => []

theorem net_recheck (before after : ℤ → Bool) (row : ℤ) :
    net (recheck before after row) = (after row).toInt - (before row).toInt := by
  unfold recheck
  cases before row <;> cases after row <;> simp [net,Announcement.net]

theorem net_append (as bs : List Announcement) : net (as ++ bs) = net as + net bs := by
  simp [net]

theorem net_recheck_range (before after : ℤ → Bool) (n : ℕ) :
    net ((List.range n).flatMap fun r : ℕ => recheck before after r) =
      ((List.range n).countP fun i : ℕ => after i : ℕ) - ((List.range n).countP fun i : ℕ => before i : ℕ) := by
  induction n with
  | zero => rfl
  | succ n ih =>
    rw [List.range_succ,List.flatMap_append,net_append,ih,List.countP_append,List.countP_append]
    simp only [List.flatMap_cons,List.flatMap_nil,List.append_nil,net_recheck,List.countP_singleton]
    cases before n <;> cases after n <;> simp <;> omega

/-- A proxy that announces a changed range of the source as one range, and a changed filter row by row. -/
def rangeProxy : QSortFilterProxyModel where
  sourceChanged
    | .inserted first last,_,after =>
      let k := acceptedIn after 0 (first - 1)
      if acceptedIn after first last = 0 then [] else [.inserted k (k + acceptedIn after first last - 1)]
    | .removed first last,before,_ =>
      let k := acceptedIn before 0 (first - 1)
      if acceptedIn before first last = 0 then [] else [.removed k (k + acceptedIn before first last - 1)]
    | .dataChanged i role,before,after =>
      if before i.row && after i.row then [.dataChanged (createIndex (acceptedIn after 0 (i.row - 1)) 0) role]
      else recheck before after i.row
  invalidateFilter count before after := (List.range count.toNat).flatMap fun r : ℕ => recheck before after r
  inserted_once first last before after := by
    dsimp only
    split
    · rename_i hzero
      exact hzero.symm
    · simp only [net,Announcement.net,List.map_cons,List.map_nil,List.sum_cons,List.sum_nil]
      omega
  removed_once first last before after := by
    dsimp only
    split
    · rename_i hzero
      rw [hzero]
      rfl
    · simp only [net,Announcement.net,List.map_cons,List.map_nil,List.sum_cons,List.sum_nil]
      omega
  refiltered_once count before after := by
    rw [net_recheck_range]
    simp [acceptedIn]

structure MapPointsFilterProxyModel (ρ : Type*) where
  source : List (MapPoint ρ)
  filterTypeID : Int32 := -1

namespace MapPointsFilterProxyModel

structure Outcome (ρ : Type*) where
  proxy : MapPointsFilterProxyModel ρ
  announced : List Announcement := []
  returned : Bool

variable {ρ : Type*}

section Rows
variable (ν : Type*) [QVariant ν] (p : MapPointsFilterProxyModel ρ)

def filterAcceptsRow (sourceRow : ℤ) : Bool :=
  if p.filterTypeID = -1 then true
  else
    let typeID := QVariant.toInt (data p.source (MapPointListModel.index sourceRow 0 {}) (userRole + 2) : ν)
    decide (typeID = p.filterTypeID)

/-- The source rows that the proxy shows, in source order. -/
def shownRows : List ℕ := (List.range p.source.length).filter fun r => filterAcceptsRow ν p r

/-- The points that the proxy shows. -/
def shown : List (MapPoint ρ) := (shownRows ν p).filterMap fun r => p.source[r]?

def rowCount : ℤ := QList.count (shownRows ν p)

/-- `QSortFilterProxyModel::index(row, 0)`; the proxy has no index for a row that it does not have. -/
def index (row : ℤ) : QModelIndex := if 0 ≤ row ∧ row < rowCount ν p then createIndex row 0 else {}

def mapToSource (proxyIndex : QModelIndex) : QModelIndex :=
  if proxyIndex.isValid then
    (QList.item (shownRows ν p) proxyIndex.row).elim {} fun r => MapPointListModel.index r 0 {}
  else {}

end Rows

section Calls
variable (ν : Type*) [QVariant ν] (qt : QSortFilterProxyModel) (p : MapPointsFilterProxyModel ρ)

/-- The proxy of Qt hears the announcements of the source one by one. -/
def relay : List (MapPoint ρ) → List (Announcement × List (MapPoint ρ)) → List Announcement
  | _, [] => []
  | before, (a,after) :: as =>
    qt.sourceChanged a (filterAcceptsRow ν { p with source := before }) (filterAcceptsRow ν { p with source := after }) ++
      relay after as

/-- `void`; views are told by `invalidateFilter`. -/
def setFilterTypeID (typeID : Int32) : Outcome ρ :=
  if p.filterTypeID ≠ typeID then
    let changed := { p with filterTypeID := typeID }
    { proxy := changed
      announced := qt.invalidateFilter (QList.count p.source) (filterAcceptsRow ν p) (filterAcceptsRow ν changed)
      returned := true }
  else { proxy := p, returned := true }

variable {ν}

/-- `insertRow(row, parent)` is `insertRows(row, 1, parent)`, and the list model ignores the parent. -/
def addMapPoint [Inhabited ρ] (value : ν) : Option (Outcome ρ) := do
  let row := rowCount ν p
  let inserted ← insertRange p.source row 1
  let changed ← (if inserted.returned then
      setData inserted.points (MapPointListModel.index row 0 {}) value editRole
    else some { points := inserted.points, returned := false })
  return {
    proxy := { p with source := changed.points }
    -- the subclass announces the row between its own `beginInsertRows` and `endInsertRows`
    announced := relay ν qt p p.source (inserted.announced ++ changed.announced) ++ [.inserted row row]
    returned := inserted.returned }

def updateMapPoint (proxyRow : ℤ) (value : ν) : Option (Outcome ρ) := do
  let changed ← setData p.source (mapToSource ν p (index ν p proxyRow)) value editRole
  return {
    proxy := { p with source := changed.points }
    announced := relay ν qt p p.source changed.announced
    returned := changed.returned }

variable (ν)

/-- `invalidate()` filters once more, with the filter as it is. -/
def removeMapPoint (proxyRow : ℤ) : Option (Outcome ρ) :=
  if proxyRow < 0 ∨ rowCount ν p ≤ proxyRow then some { proxy := p, returned := false }
  else do
    let sourceIndex := mapToSource ν p (index ν p proxyRow)
    let removed ← removeRange p.source sourceIndex.row 1
    let after := { p with source := removed.points }
    return {
      proxy := after
      announced := relay ν qt p p.source removed.announced ++ [.removed proxyRow proxyRow] ++
        qt.invalidateFilter (QList.count after.source) (filterAcceptsRow ν after) (filterAcceptsRow ν after)
      returned := removed.returned }

end Calls

section Shown
variable {ν : Type*} [QVariant ν] (p : MapPointsFilterProxyModel ρ)

/-- The filter on a point of the source. -/
def accepts (filterTypeID : Int32) (point : MapPoint ρ) : Bool :=
  filterTypeID = -1 || point.index = filterTypeID

theorem filterAcceptsRow_eq {row : ℕ} {point : MapPoint ρ} (h : p.source[row]? = some point) :
    filterAcceptsRow ν p row = accepts p.filterTypeID point := by
  have hread : (data p.source (createIndex row 0) (userRole + 2) : ν) = QVariant.ofInt point.index :=
    data_of_getElem? h _
  unfold filterAcceptsRow accepts
  rw [index_eq,hread,QVariant.toInt_ofInt]
  split <;> simp_all

theorem shownRows_eq : shownRows ν p = acceptedAt (accepts p.filterTypeID) p.source := by
  unfold shownRows acceptedAt
  apply List.filter_congr
  intro row hrow
  have hget := List.getElem?_eq_getElem (List.mem_range.mp hrow)
  rw [filterAcceptsRow_eq p hget,hget,Option.any_some]

theorem shown_eq : shown ν p = p.source.filter (accepts p.filterTypeID) := by
  rw [shown,shownRows_eq,filterMap_acceptedAt]

theorem rowCount_eq : rowCount ν p = (p.source.filter (accepts p.filterTypeID)).length := by
  rw [rowCount,QList.count,shownRows_eq,length_acceptedAt]

theorem rowCount_le : rowCount ν p ≤ MapPointListModel.rowCount p.source := by
  rw [rowCount_eq]
  exact Int.ofNat_le.mpr (List.length_filter_le _ _)

theorem mapToSource_index {row : ℕ} {r : ℕ} (h : (shownRows ν p)[row]? = some r) :
    mapToSource ν p (index ν p row) = createIndex r 0 := by
  have hlt : (row : ℤ) < rowCount ν p := Int.ofNat_lt.mpr (List.getElem?_eq_some_iff.mp h).1
  rw [index,if_pos ⟨Int.natCast_nonneg row,hlt⟩,mapToSource,
    if_pos (isValid_createIndex.mpr (Int.natCast_nonneg row)),createIndex_row,item_natCast,h,Option.elim_some,index_eq]

theorem mapToSource_invalid {row : ℤ} (h : ¬ (0 ≤ row ∧ row < rowCount ν p)) :
    mapToSource ν p (index ν p row) = {} := by
  rw [index,if_neg h,mapToSource,if_neg (by decide)]

/-- No role but the name and the index is writable, and the proxy asks for neither. -/
theorem setData_editRole {points : List (MapPoint ρ)} {row : ℕ} (h : row < points.length) (value : ν) :
    setData points (createIndex row 0) value editRole = some { points := points, returned := false } := by
  rw [setData_natCast,List.getElem?_eq_getElem h,Option.map_some,if_neg (by decide),if_neg (by decide)]

end Shown
end MapPointsFilterProxyModel
end FDemo.MapModel
