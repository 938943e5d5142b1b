import FDemo.MapModel.Store

/-! # Observers of the list model

An observer copies the rows once and afterwards only follows what the model
announces. It stays in step over a run of calls exactly when every range that is
inserted or removed lies inside the list: the model announces the range it was
asked for, whatever the list allows, and reports success.
-/
namespace FDemo.MapModel
open MapPointListModel

/-- The name, the index and the error of a row. -/
abbrev Row (ν : Type*) := ν × ν × ν

section Follow
variable {ν ρ : Type*} [QVariant ν]

def readRow (points : List (MapPoint ρ)) (row : ℤ) : Row ν :=
  let i := index row 0 {}
  (data points i nameRole,data points i indexRole,data points i isErrorRole)

def readRows (points : List (MapPoint ρ)) (first last : ℤ) : List (Row ν) :=
  (List.range (last + 1 - first).toNat).map fun i : ℕ => readRow points (first + i)

def rows (points : List (MapPoint ρ)) : List (Row ν) := readRows points 0 (rowCount points - 1)

/-- What an observer does with its rows at an announcement. -/
def follow (view : List (Row ν)) (a : Announcement × List (MapPoint ρ)) : List (Row ν) :=
  match a.1 with
  | .inserted first last => view.take first.toNat ++ readRows a.2 first last ++ view.drop first.toNat
  | .removed first last => view.take first.toNat ++ view.drop (max first (last + 1)).toNat
  | .dataChanged i _ => view.set i.row.toNat (readRow a.2 i.row)

def followAll (view : List (Row ν)) (as : List (Announcement × List (MapPoint ρ))) : List (Row ν) :=
  as.foldl follow view

def cells (point : MapPoint ρ) : Row ν :=
  (roleData point nameRole,roleData point indexRole,roleData point isErrorRole)

theorem readRow_natCast {points : List (MapPoint ρ)} {row : ℕ} {point : MapPoint ρ}
    (h : points[row]? = some point) : (readRow points row : Row ν) = cells point := by
  simp only [readRow,index_eq,data_of_getElem? h]
  rfl

theorem readRows_append (pre mid post : List (MapPoint ρ)) :
    (readRows (pre ++ mid ++ post) pre.length (pre.length + mid.length - 1) : List (Row ν)) = mid.map cells := by
  have hcount : ((pre.length + mid.length - 1 + 1 - pre.length : ℤ)).toNat = mid.length := by omega
  unfold readRows
  rw [hcount]
  apply List.ext_getElem
  · simp
  · intro i hi _
    simp only [List.length_map,List.length_range] at hi
    have hget : (pre ++ mid ++ post)[pre.length + i]? = some mid[i] := by
      rw [List.append_assoc,List.getElem?_append_right (Nat.le_add_right _ _),Nat.add_sub_cancel_left,
        List.getElem?_append_left hi,List.getElem?_eq_getElem hi]
    have hrow := readRow_natCast (ν := ν) hget
    rw [List.getElem_map,List.getElem_map,List.getElem_range]
    exact_mod_cast hrow

@[simp] theorem rows_eq (points : List (MapPoint ρ)) : (rows points : List (Row ν)) = points.map cells := by
  have h := readRows_append (ν := ν) [] points []
  simpa [rows,rowCount,QList.count] using h

end Follow

/-- A call of the list model; `setData` goes through the index that `index(row, 0)` returns. -/
inductive Call (ν : Type*) where
  | append (name : QString)
  | setData (row : ℤ) (value : ν) (role : ℤ)
  | insertRows (position rows : Int32)
  | removeRows (position rows : Int32)

namespace Call
variable {ν ρ : Type*} [QVariant ν] [Inhabited ρ]

def run (points : List (MapPoint ρ)) : Call ν → Option (Outcome ρ)
  | append name => MapPointListModel.append ν points name
  | setData row value role => MapPointListModel.setData points (index row 0 {}) value role
  | insertRows position rows => MapPointListModel.insertRows points position rows
  | removeRows position rows => MapPointListModel.removeRows points position rows

/-- The list has a place for the rows that are inserted. -/
def CanInsert (points : List (MapPoint ρ)) (position rows : Int32) : Prop :=
  0 ≤ rows.toInt ∧ 0 ≤ position.toInt ∧ position.toInt ≤ rowCount points

/-- The list has the rows that are removed. -/
def CanRemove (points : List (MapPoint ρ)) (position rows : Int32) : Prop :=
  0 ≤ rows.toInt ∧ 0 ≤ position.toInt ∧ position.toInt + rows.toInt ≤ rowCount points

/-- The ranges are those of the list, and their ends are numbers of an `int`. A `setData` on a row past the
end is left to its caller. -/
def InRange (points : List (MapPoint ρ)) : Call ν → Prop
  | append _ => True
  | setData row _ _ => row < rowCount points
  | insertRows position rows => CanInsert points position rows ∧ position.toInt + rows.toInt < 2 ^ 31
  | removeRows position rows => CanRemove points position rows ∧ position.toInt + rows.toInt < 2 ^ 31

/-- The call can be carried out as asked. -/
def Feasible (points : List (MapPoint ρ)) : Call ν → Prop
  | append _ => True
  | setData row _ role => 0 ≤ row ∧ row < rowCount points ∧ (role = nameRole ∨ role = indexRole)
  | insertRows position rows => CanInsert points position rows
  | removeRows position rows => CanRemove points position rows

end Call

section Calls
variable {ν ρ : Type*} [QVariant ν] [Inhabited ρ]

theorem insertLoop_append (pre post : List (MapPoint ρ)) (n : ℕ) :
    insertLoop pre.length n (pre ++ post) = some (pre ++ List.replicate n default ++ post) := by
  induction n generalizing post with
  | zero => simp [insertLoop]
  | succ n ih =>
    have hinsert : QList.insert (pre ++ post) pre.length default = some (pre ++ default :: post) := by
      unfold QList.insert QList.count
      rw [if_pos (by simp only [List.length_append]; omega),Int.toNat_natCast,insertIdx_length_append]
    rw [insertLoop,hinsert,Option.bind_some,ih,List.replicate_succ']
    simp

omit [Inhabited ρ] in
theorem removeLoop_append (pre mid post : List (MapPoint ρ)) :
    removeLoop pre.length mid.length (pre ++ mid ++ post) = some (pre ++ post) := by
  induction mid with
  | nil => simp [removeLoop]
  | cons a mid ih =>
    have hremove : QList.removeAt (pre ++ a :: mid ++ post) pre.length = some (pre ++ mid ++ post) := by
      unfold QList.removeAt QList.count
      rw [if_pos (by simp only [List.length_append,List.length_cons]; omega),Int.toNat_natCast,
        List.append_assoc,List.cons_append,eraseIdx_length_append,List.append_assoc]
    rw [List.length_cons,removeLoop,hremove,Option.bind_some,ih]

theorem insertRange_append (pre post : List (MapPoint ρ)) (n : ℕ) :
    insertRange (pre ++ post) pre.length n = some {
      points := pre ++ List.replicate n default ++ post
      announced := [(.inserted pre.length (pre.length + n - 1),pre ++ List.replicate n default ++ post)]
      returned := true } := by
  rw [insertRange,Int.toNat_natCast,insertLoop_append,Option.map_some]

omit [Inhabited ρ] in
theorem removeRange_append (pre mid post : List (MapPoint ρ)) :
    removeRange (pre ++ mid ++ post) pre.length mid.length = some {
      points := pre ++ post
      announced := [(.removed pre.length (pre.length + mid.length - 1),pre ++ post)]
      returned := true } := by
  rw [removeRange,Int.toNat_natCast,removeLoop_append,Option.map_some]

theorem insertRow_append (pre post : List (MapPoint ρ)) : insertRange (pre ++ post) pre.length 1 = some {
    points := pre ++ default :: post
    announced := [(.inserted pre.length pre.length,pre ++ default :: post)]
    returned := true } := by
  simpa using insertRange_append pre post 1

omit [Inhabited ρ] in
theorem removeRow_append (pre post : List (MapPoint ρ)) (point : MapPoint ρ) :
    removeRange (pre ++ point :: post) pre.length 1 = some {
      points := pre ++ post
      announced := [(.removed pre.length pre.length,pre ++ post)]
      returned := true } := by
  simpa using removeRange_append pre [point] post

omit [Inhabited ρ] in
theorem returned_of_removeRange {points : List (MapPoint ρ)} {position rows : ℤ} {o : Outcome ρ}
    (h : removeRange points position rows = some o) : o.returned = true := by
  obtain ⟨points',-,rfl⟩ := Option.map_eq_some_iff.mp h
  rfl

theorem returned_of_insertRange {points : List (MapPoint ρ)} {position rows : ℤ} {o : Outcome ρ}
    (h : insertRange points position rows = some o) : o.returned = true := by
  obtain ⟨points',-,rfl⟩ := Option.map_eq_some_iff.mp h
  rfl

omit [Inhabited ρ] in
/-- What `setData` can do: nothing, or change the point of its row and announce it. -/
theorem setData_cases {points : List (MapPoint ρ)} {row : ℤ} {value : ν} {role : ℤ} {o : Outcome ρ}
    (h : setData points (createIndex row 0) value role = some o) :
    o = { points := points, returned := false } ∨ 0 ≤ row ∧ row < points.length ∧
      (role = nameRole ∨ role = indexRole) ∧ ∃ point, o = notify points (createIndex row 0) role point := by
  unfold setData at h
  by_cases hrow : 0 ≤ row
  · rw [if_pos (isValid_createIndex.mpr hrow)] at h
    obtain ⟨point,hpoint,rfl⟩ := Option.map_eq_some_iff.mp h
    rw [createIndex_row,item_eq _ hrow] at hpoint
    have hlt : row < points.length := by
      have := (List.getElem?_eq_some_iff.mp hpoint).1
      omega
    split
    · rename_i hname
      split
      · exact Or.inr ⟨hrow,hlt,Or.inl hname,_,rfl⟩
      · exact Or.inl rfl
    · split
      · rename_i hindex
        split
        · exact Or.inr ⟨hrow,hlt,Or.inr hindex,_,rfl⟩
        · exact Or.inl rfl
      · exact Or.inl rfl
  · rw [if_neg (fun hv => hrow (isValid_createIndex.mp hv))] at h
    exact Or.inl (Option.some.inj h).symm

/-- An observer in step before the call is in step after it. -/
def Followed (ν : Type*) [QVariant ν] (points : List (MapPoint ρ)) (o : Outcome ρ) : Prop :=
  followAll (rows points : List (Row ν)) o.announced = rows o.points

theorem followed_insertRange {points : List (MapPoint ρ)} {position rows : ℤ} (hrows : 0 ≤ rows)
    (hfirst : 0 ≤ position) (hlast : position ≤ rowCount points) :
    ∃ o, insertRange points position rows = some o ∧ Followed ν points o := by
  obtain ⟨n,rfl⟩ := Int.eq_ofNat_of_zero_le hrows
  obtain ⟨p,rfl⟩ := Int.eq_ofNat_of_zero_le hfirst
  obtain ⟨pre,post,rfl,rfl⟩ := exists_split_at (l := points) (n := p) (Int.ofNat_le.mp hlast)
  refine ⟨_,insertRange_append pre post n,?_⟩
  have hread := readRows_append (ν := ν) pre (List.replicate n default) post
  rw [List.length_replicate] at hread
  simp only [Followed,followAll,List.foldl_cons,List.foldl_nil,follow,hread,rows_eq,List.map_append,Int.toNat_natCast]
  rw [List.take_left' (List.length_map _),List.drop_left' (List.length_map _)]

omit [Inhabited ρ] in
theorem followed_removeRange {points : List (MapPoint ρ)} {position rows : ℤ} (hrows : 0 ≤ rows)
    (hfirst : 0 ≤ position) (hlast : position + rows ≤ rowCount points) :
    ∃ o, removeRange points position rows = some o ∧ Followed ν points o := by
  obtain ⟨n,rfl⟩ := Int.eq_ofNat_of_zero_le hrows
  obtain ⟨p,rfl⟩ := Int.eq_ofNat_of_zero_le hfirst
  unfold rowCount QList.count at hlast
  obtain ⟨pre,rest,rfl,rfl⟩ := exists_split_at (l := points) (n := p) (by omega)
  obtain ⟨mid,post,rfl,rfl⟩ := exists_split_at (l := rest) (n := n) (by simp at hlast; omega)
  rw [← List.append_assoc]
  refine ⟨_,removeRange_append pre mid post,?_⟩
  have hkeep : (max (pre.length : ℤ) (pre.length + mid.length - 1 + 1)).toNat = (pre ++ mid).length := by
    rw [List.length_append]
    omega
  simp only [Followed,followAll,List.foldl_cons,List.foldl_nil,follow,rows_eq,hkeep,Int.toNat_natCast]
  rw [List.map_append,List.drop_left' (List.length_map _),List.map_append,List.append_assoc,
    List.take_left' (List.length_map _),List.map_append]

theorem insertLoop_range {position : ℤ} {n : ℕ} {points points' : List (MapPoint ρ)}
    (h : insertLoop position (n + 1) points = some points') : 0 ≤ position ∧ position ≤ rowCount points := by
  obtain ⟨next,hinsert,-⟩ := Option.bind_eq_some_iff.mp h
  exact (QList.insert_eq_some_iff.mp hinsert).1

omit [Inhabited ρ] in
theorem removeLoop_range {position : ℤ} {n : ℕ} {points points' : List (MapPoint ρ)}
    (h : removeLoop position n points = some points') : n = 0 ∨ 0 ≤ position ∧ position + n ≤ rowCount points := by
  induction n generalizing points with
  | zero => exact Or.inl rfl
  | succ n ih =>
    obtain ⟨next,hremove,hrest⟩ := Option.bind_eq_some_iff.mp h
    obtain ⟨hrange,rfl⟩ := QList.removeAt_eq_some_iff.mp hremove
    unfold rowCount QList.count at *
    have hlen := List.length_eraseIdx_of_lt (l := points) (i := position.toNat) (by omega)
    rcases ih hrest with rfl | ⟨-,hle⟩
    · exact Or.inr (by omega)
    · exact Or.inr (by omega)

/-- An insertion that has a result can be followed, also one of no rows anywhere. -/
theorem followed_of_insertRange {points : List (MapPoint ρ)} {position rows : ℤ} {o : Outcome ρ}
    (h : insertRange points position rows = some o) : Followed ν points o := by
  obtain ⟨points',hloop,ho⟩ := Option.map_eq_some_iff.mp h
  by_cases hrows : rows ≤ 0
  · rw [Int.toNat_of_nonpos hrows] at hloop
    obtain rfl := Option.some.inj hloop
    have hnone : (position + rows - 1 + 1 - position).toNat = 0 := by omega
    subst ho
    simp only [Followed,followAll,List.foldl_cons,List.foldl_nil,follow,readRows,hnone,List.range_zero,List.map_nil,
      List.append_nil,List.take_append_drop]
  · obtain ⟨n,hn⟩ : ∃ n, rows.toNat = n + 1 := ⟨rows.toNat - 1,by omega⟩
    rw [hn] at hloop
    obtain ⟨hfirst,hlast⟩ := insertLoop_range hloop
    obtain ⟨o',ho',hfollowed⟩ := followed_insertRange (ν := ν) (Int.le_of_lt (Int.not_le.mp hrows)) hfirst hlast
    obtain rfl := Option.some.inj (h.symm.trans ho')
    exact hfollowed

omit [Inhabited ρ] in
/-- A removal that has a result can be followed, also one of no rows anywhere. -/
theorem followed_of_removeRange {points : List (MapPoint ρ)} {position rows : ℤ} {o : Outcome ρ}
    (h : removeRange points position rows = some o) : Followed ν points o := by
  obtain ⟨points',hloop,ho⟩ := Option.map_eq_some_iff.mp h
  by_cases hrows : rows ≤ 0
  · rw [Int.toNat_of_nonpos hrows] at hloop
    obtain rfl := Option.some.inj hloop
    have hkeep : max position (position + rows - 1 + 1) = position := by omega
    subst ho
    simp only [Followed,followAll,List.foldl_cons,List.foldl_nil,follow,hkeep,List.take_append_drop]
  · have hpos : 0 ≤ rows := Int.le_of_lt (Int.not_le.mp hrows)
    obtain ⟨hfirst,hlast⟩ := (removeLoop_range hloop).resolve_left (by omega)
    rw [Int.toNat_of_nonneg hpos] at hlast
    obtain ⟨o',ho',hfollowed⟩ := followed_removeRange (ν := ν) hpos hfirst hlast
    obtain rfl := Option.some.inj (h.symm.trans ho')
    exact hfollowed

omit [Inhabited ρ] in
theorem followed_setData {points : List (MapPoint ρ)} {row : ℤ} {value : ν} {role : ℤ} {o : Outcome ρ}
    (h : setData points (createIndex row 0) value role = some o) : Followed ν points o := by
  rcases setData_cases h with rfl | ⟨hrow,hlt,-,point,rfl⟩
  · rfl
  · obtain ⟨r,rfl⟩ := Int.eq_ofNat_of_zero_le hrow
    have hset : (points.set r point)[r]? = some point := List.getElem?_set_self (by omega)
    simp only [Followed,followAll,notify,List.foldl_cons,List.foldl_nil,follow,createIndex_row,rows_eq,
      Int.toNat_natCast,readRow_natCast hset,List.map_set]

omit [Inhabited ρ] in
theorem followAll_append {view : List (Row ν)} (as bs : List (Announcement × List (MapPoint ρ))) :
    followAll view (as ++ bs) = followAll (followAll view as) bs := List.foldl_append

theorem followed_append {points : List (MapPoint ρ)} {name : QString} {o : Outcome ρ}
    (h : append ν points name = some o) : Followed ν points o := by
  unfold append at h
  obtain ⟨inserted,hinserted,h⟩ := Option.bind_eq_some_iff.mp h
  obtain ⟨named,hnamed,h⟩ := Option.bind_eq_some_iff.mp h
  obtain ⟨indexed,hindexed,h⟩ := Option.bind_eq_some_iff.mp h
  obtain rfl := Option.some.inj h
  have hfirst : Followed ν points inserted := followed_of_insertRange hinserted
  have hsecond : Followed ν inserted.points named := followed_setData hnamed
  have hthird : Followed ν named.points indexed := followed_setData hindexed
  unfold Followed at *
  rw [followAll_append,followAll_append,hfirst,hsecond,hthird]

/-- Whatever a call asks for, an observer can follow it if the call has a result. -/
theorem Call.followed_of_run {points : List (MapPoint ρ)} {call : Call ν} {o : Outcome ρ}
    (h : call.run points = some o) : Followed ν points o := by
  cases call with
  | append name => exact followed_append h
  | setData row value role =>
    have hset : MapPointListModel.setData points (index row 0 {}) value role = some o := h
    rw [index_eq] at hset
    exact followed_setData hset
  | insertRows position rows => exact followed_of_insertRange (insertRows_eq_some_iff.mp h).2
  | removeRows position rows => exact followed_of_removeRange (removeRows_eq_some_iff.mp h).2

/-- The point of a row once `setData` has been called on it. -/
def written (point : MapPoint ρ) (value : ν) (role : ℤ) : MapPoint ρ :=
  if role = nameRole then { point with name := QVariant.toString value }
  else if role = indexRole then { point with index := QVariant.toInt value }
  else point

omit [Inhabited ρ] in
theorem setData_points {points : List (MapPoint ρ)} {row : ℕ} {point : MapPoint ρ}
    (hpoint : points[row]? = some point) (value : ν) (role : ℤ) :
    ∃ o, setData points (createIndex row 0) value role = some o ∧
      o.points = points.set row (written point value role) := by
  have hsame : points.set row point = points := by
    obtain ⟨hlt,rfl⟩ := List.getElem?_eq_some_iff.mp hpoint
    exact List.set_getElem_self hlt
  refine ⟨_,by rw [setData_natCast,hpoint,Option.map_some],?_⟩
  unfold written
  split
  · split
    · rfl
    · rename_i heq
      rw [← not_not.mp heq]
      exact hsame.symm
  · split
    · split
      · rfl
      · rename_i heq
        rw [← not_not.mp heq]
        exact hsame.symm
    · exact hsame.symm

/-- `append` adds one point at the end, with the name and with its row modulo 2. -/
theorem append_points (points : List (MapPoint ρ)) (name : QString) : ∃ o, append ν points name = some o ∧
    o.points = points ++ [{ (default : MapPoint ρ) with
      name := name, index := Int32.ofInt (rowCount points % 2) }] := by
  obtain ⟨inserted,hinserted,hpoints⟩ : ∃ o, insertRange points (rowCount points) 1 = some o ∧
      o.points = points ++ [default] :=
    ⟨_,by simpa [rowCount,QList.count] using insertRange_append points [] 1,by simp⟩
  have hlast : ∀ p : MapPoint ρ, (points ++ [p])[points.length]? = some p := by simp
  have hset : ∀ p q : MapPoint ρ, (points ++ [p]).set points.length q = points ++ [q] := by simp
  obtain ⟨named,hnamed,hpoints'⟩ := setData_points (hlast default) (QVariant.ofString name : ν) nameRole
  rw [hset] at hpoints'
  obtain ⟨indexed,hindexed,hpoints''⟩ := setData_points (hlast (written default (QVariant.ofString name : ν) nameRole))
    (QVariant.ofInt (Int32.ofInt (rowCount points % 2)) : ν) indexRole
  rw [hset] at hpoints''
  rw [← hpoints] at hnamed
  rw [← hpoints'] at hindexed
  refine ⟨_,Option.bind_eq_some_iff.mpr ⟨inserted,hinserted,Option.bind_eq_some_iff.mpr ⟨named,hnamed,
    Option.bind_eq_some_iff.mpr ⟨indexed,hindexed,rfl⟩⟩⟩,?_⟩
  rw [hpoints'']
  simp [written,nameRole,indexRole,QVariant.toString_ofString,QVariant.toInt_ofInt]

end Calls

section Runs
variable {ν ρ : Type*} [QVariant ν] [Inhabited ρ]

/-- Over a run of calls, no call leaves the list, the observer's rows are the model's rows after each
of them, and one that cannot be carried out returns false and does nothing. -/
def InStep : List (MapPoint ρ) → List (Row ν) → List (Call ν) → Prop
  | _, _, [] => True
  | points, view, call :: calls => ∃ o, call.run points = some o ∧ followAll view o.announced = rows o.points ∧
      (¬ call.Feasible points → o = { points := points, returned := false }) ∧
      InStep o.points (followAll view o.announced) calls

/-- Every call of a run is in range of the list it meets. -/
def AllInRange : List (MapPoint ρ) → List (Call ν) → Prop
  | _, [] => True
  | points, call :: calls => call.InRange points ∧ ∀ o, call.run points = some o → AllInRange o.points calls

theorem Call.inRange_of_feasible {points : List (MapPoint ρ)} {call : Call ν} {o : Outcome ρ}
    (hrun : call.run points = some o)
    (h : ¬ call.Feasible points → o = { points := points, returned := false }) : call.InRange points := by
  cases call with
  | append name => trivial
  | setData row value role =>
    by_contra hge
    have hrow : rowCount points ≤ row := Int.not_lt.mp hge
    have hcount : 0 ≤ rowCount points := Int.natCast_nonneg _
    obtain ⟨r,rfl⟩ := Int.eq_ofNat_of_zero_le (Int.le_trans hcount hrow)
    have hset : MapPointListModel.setData points (index (r : ℤ) 0 {}) value role = some o := hrun
    have hnone : points[r]? = none := List.getElem?_eq_none (Int.ofNat_le.mp hrow)
    rw [index_eq,setData_natCast,hnone] at hset
    exact absurd hset (Option.some_ne_none o).symm
  | insertRows position rows =>
    obtain ⟨hsum,hrange⟩ := insertRows_eq_some_iff.mp hrun
    refine ⟨?_,hsum.2⟩
    by_contra hout
    have htrue := returned_of_insertRange hrange
    rw [h hout] at htrue
    exact absurd htrue Bool.false_ne_true
  | removeRows position rows =>
    obtain ⟨hsum,hrange⟩ := removeRows_eq_some_iff.mp hrun
    refine ⟨?_,hsum.2⟩
    by_contra hout
    have htrue := returned_of_removeRange hrange
    rw [h hout] at htrue
    exact absurd htrue Bool.false_ne_true

/-- A call in range has a result, which an observer in step can follow. -/
theorem Call.followed_of_inRange {points : List (MapPoint ρ)} {call : Call ν} (h : call.InRange points) :
    ∃ o, call.run points = some o ∧ Followed ν points o ∧
      (¬ call.Feasible points → o = { points := points, returned := false }) := by
  cases call with
  | append name =>
    obtain ⟨o,ho,-⟩ := append_points (ν := ν) points name
    exact ⟨o,ho,followed_append ho,fun hn => absurd trivial hn⟩
  | setData row value role =>
    have hrun : ∃ o, MapPointListModel.setData points (index row 0 {}) value role = some o := by
      rw [index_eq]
      by_cases hrow : 0 ≤ row
      · obtain ⟨r,rfl⟩ := Int.eq_ofNat_of_zero_le hrow
        obtain ⟨o,ho,-⟩ := setData_points (List.getElem?_eq_getElem (Int.ofNat_lt.mp h)) value role
        exact ⟨o,ho⟩
      · exact ⟨_,if_neg (fun hv => hrow (isValid_createIndex.mp hv))⟩
    obtain ⟨o,ho⟩ := hrun
    have hset := ho
    rw [index_eq] at hset
    refine ⟨o,ho,followed_setData hset,fun hn => ?_⟩
    rcases setData_cases hset with hsame | ⟨hrow,hlt,hrole,-⟩
    · exact hsame
    · exact absurd ⟨hrow,hlt,hrole⟩ hn
  | insertRows position rows =>
    obtain ⟨⟨hrows,hfirst,hlast⟩,hsum⟩ := h
    obtain ⟨o,ho,hfollowed⟩ := followed_insertRange (ν := ν) hrows hfirst hlast
    exact ⟨o,insertRows_eq_some_iff.mpr ⟨⟨by omega,hsum⟩,ho⟩,hfollowed,fun hn => absurd ⟨hrows,hfirst,hlast⟩ hn⟩
  | removeRows position rows =>
    obtain ⟨⟨hrows,hfirst,hlast⟩,hsum⟩ := h
    obtain ⟨o,ho,hfollowed⟩ := followed_removeRange (ν := ν) hrows hfirst hlast
    exact ⟨o,removeRows_eq_some_iff.mpr ⟨⟨by omega,hsum⟩,ho⟩,hfollowed,fun hn => absurd ⟨hrows,hfirst,hlast⟩ hn⟩

/-- An observer stays in step exactly over the runs whose calls are all in range. -/
theorem inStep_iff_allInRange (points : List (MapPoint ρ)) (calls : List (Call ν)) :
    InStep points (rows points) calls ↔ AllInRange points calls := by
  induction calls generalizing points with
  | nil => exact Iff.rfl
  | cons call calls ih =>
    constructor
    · rintro ⟨o,hrun,hview,hrejected,hrest⟩
      rw [hview,ih] at hrest
      refine ⟨call.inRange_of_feasible hrun hrejected,fun o' hrun' => ?_⟩
      obtain rfl := Option.some.inj (hrun.symm.trans hrun')
      exact hrest
    · rintro ⟨hrange,hrest⟩
      obtain ⟨o,hrun,hview,hrejected⟩ := call.followed_of_inRange hrange
      have hin := (ih o.points).mpr (hrest o hrun)
      exact ⟨o,hrun,hview,hrejected,by rwa [show followAll (rows points) o.announced = _ from hview]⟩

theorem removeRows_past_end : ¬ ∀ (points : List (MapPoint Unit)) (position count : Int32),
    InStep points (rows points) [(Call.removeRows position count : Call PlainVariant)] := by
  intro h
  obtain ⟨o,hrun,-⟩ := h [default] 0 2
  have hnone : MapPointListModel.removeRows [(default : MapPoint Unit)] 0 2 = none := by decide
  exact absurd (hnone.symm.trans hrun) (Option.some_ne_none o).symm

end Runs
end FDemo.MapModel
