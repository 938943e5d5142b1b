import FDemo.MapModel.MapPointsFilterProxyModel

/-! # Editing the source through the proxy

Adding takes a row number of the proxy for a position in the source, which is
the end only when what follows there cannot be told from the new point. Removing
maps the row to the source first, and loses exactly the point that was shown.
Updating maps the row as well, and then writes under a role that the source
does not take.
-/
namespace FDemo.MapModel.MapPointsFilterProxyModel
open MapPointListModel
variable {ν ρ : Type*} [QVariant ν] (qt : QSortFilterProxyModel) (p : MapPointsFilterProxyModel ρ)

section Add
variable [Inhabited ρ]

/-- What `addMapPoint` does: a new point goes into the source at the number of rows shown. -/
theorem addMapPoint_eq {pre post : List (MapPoint ρ)} (hsource : p.source = pre ++ post)
    (hrow : rowCount ν p = pre.length) (value : ν) : addMapPoint qt p value = some {
      proxy := { p with source := pre ++ default :: post }
      announced := qt.sourceChanged (.inserted pre.length pre.length) (filterAcceptsRow ν p)
        (filterAcceptsRow ν { p with source := pre ++ default :: post }) ++ [.inserted pre.length pre.length]
      returned := true } := by
  have hinsert := insertRow_append pre post
  have hlen : pre.length < (pre ++ (default : MapPoint ρ) :: post).length := by
    rw [List.length_append,List.length_cons]
    omega
  have hset := setData_editRole hlen value
  refine Option.bind_eq_some_iff.mpr ⟨_,by rw [hrow,hsource]; exact hinsert,?_⟩
  refine Option.bind_eq_some_iff.mpr ⟨_,by rw [if_pos rfl,index_eq,hrow]; exact hset,?_⟩
  simp [relay,hrow]

omit [Inhabited ρ] in
theorem exists_split_rowCount : ∃ pre post, p.source = pre ++ post ∧ rowCount ν p = pre.length := by
  have hrows : rowCount ν p ≤ p.source.length := rowCount_le p
  have hnonneg : 0 ≤ rowCount ν p := Int.natCast_nonneg _
  obtain ⟨pre,post,hsource,hlen⟩ := exists_split_at (l := p.source) (n := (rowCount ν p).toNat) (by omega)
  exact ⟨pre,post,hsource,by omega⟩

/-- Adding puts one point behind the source list, or leaves the list alone and says so. -/
def AddAppends (value : ν) : Prop :=
  ∃ o, addMapPoint qt p value = some o ∧
    (o.returned = true → ∃ point, o.proxy.source = p.source ++ [point]) ∧
    (o.returned = false → o.proxy.source = p.source)

/-- Adding appends exactly when every source point from the proxy's row count on equals a new point. -/
theorem addMapPoint_appends_iff (value : ν) : AddAppends qt p value ↔
    ∀ point ∈ p.source.drop (rowCount ν p).toNat, point = default := by
  obtain ⟨pre,post,hsource,hrow⟩ := exists_split_rowCount (ν := ν) p
  have hiff := insertIdx_eq_concat_iff (l := pre ++ post) (n := pre.length) (by simp) (a := default)
  rw [insertIdx_length_append] at hiff
  rw [hrow,Int.toNat_natCast,hsource,← hiff]
  constructor
  · rintro ⟨o,hadd,htrue,-⟩
    rw [addMapPoint_eq qt p hsource hrow] at hadd
    obtain rfl := Option.some.inj hadd
    rw [← hsource]
    exact htrue rfl
  · rintro ⟨point,hpoint⟩
    refine ⟨_,addMapPoint_eq qt p hsource hrow value,fun _ => ⟨point,?_⟩,fun h => absurd h Bool.false_ne_true.symm⟩
    rw [hsource]
    exact hpoint

end Add

/-- Two points of which the filter hides the first. -/
def hiddenFirst : MapPointsFilterProxyModel Unit where
  source := [{ index := 1, rest := () },{ index := 2, rest := () }]
  filterTypeID := 2

theorem addMapPoint_between : ¬ ∀ (qt : QSortFilterProxyModel) (p : MapPointsFilterProxyModel Unit)
    (value : PlainVariant), AddAppends qt p value := by
  intro h
  obtain ⟨o,hadd,htrue,-⟩ := h rangeProxy hiddenFirst .invalid
  have hrow : rowCount PlainVariant hiddenFirst = ([{ index := 1, rest := () }] : List (MapPoint Unit)).length := by
    decide
  rw [addMapPoint_eq rangeProxy hiddenFirst rfl hrow] at hadd
  obtain rfl := Option.some.inj hadd
  obtain ⟨point,hpoint⟩ := htrue rfl
  have hsecond : some (default : MapPoint Unit) = some { index := 2, rest := () } := congrArg (fun l => l[1]?) hpoint
  exact absurd hsecond (by decide)

/-- Where nothing is hidden a new point goes to the end. -/
theorem addMapPoint_appends_of_all [Inhabited ρ] (hall : rowCount ν p = MapPointListModel.rowCount p.source)
    (value : ν) : AddAppends qt p value := by
  have hadd := addMapPoint_eq qt p (List.append_nil p.source).symm hall value
  exact ⟨_,hadd,fun _ => ⟨default,rfl⟩,fun hfalse => absurd hfalse Bool.false_ne_true.symm⟩

section Remove

/-- What `removeMapPoint` does on a row that is shown. -/
theorem removeMapPoint_eq {k : ℕ} {pre post : List (MapPoint ρ)} {point : MapPoint ρ}
    (hsource : p.source = pre ++ point :: post) (hrow : (shownRows ν p)[k]? = some pre.length) :
    removeMapPoint ν qt p k = some {
      proxy := { p with source := pre ++ post }
      announced := qt.sourceChanged (.removed pre.length pre.length) (filterAcceptsRow ν p)
        (filterAcceptsRow ν { p with source := pre ++ post }) ++ [.removed k k] ++
        qt.invalidateFilter (QList.count (pre ++ post)) (filterAcceptsRow ν { p with source := pre ++ post })
          (filterAcceptsRow ν { p with source := pre ++ post })
      returned := true } := by
  have hremove := removeRow_append pre post point
  have hlt : (k : ℤ) < rowCount ν p := Int.ofNat_lt.mpr (List.getElem?_eq_some_iff.mp hrow).1
  rw [removeMapPoint,if_neg (by omega),mapToSource_index p hrow]
  refine Option.bind_eq_some_iff.mpr ⟨_,by rw [hsource]; exact hremove,?_⟩
  simp [relay]

theorem exists_shown {proxyRow : ℤ} (h : 0 ≤ proxyRow ∧ proxyRow < rowCount ν p) :
    ∃ (k : ℕ) (pre post : List (MapPoint ρ)) (point : MapPoint ρ), proxyRow = k ∧ p.source = pre ++ point :: post ∧
      (shownRows ν p)[k]? = some pre.length ∧ (shown ν p)[k]? = some point ∧
      (pre ++ post).filter (accepts p.filterTypeID) = (shown ν p).eraseIdx k := by
  obtain ⟨k,rfl⟩ := Int.eq_ofNat_of_zero_le h.1
  obtain ⟨r,hr⟩ : ∃ r, (shownRows ν p)[k]? = some r := ⟨_,List.getElem?_eq_getElem (Int.ofNat_lt.mp h.2)⟩
  obtain ⟨hlt,hget,herase⟩ := filter_eraseIdx_acceptedAt (shownRows_eq (ν := ν) p ▸ hr)
  obtain ⟨pre,rest,hsource,rfl⟩ := exists_split_at (Nat.le_of_lt hlt)
  obtain ⟨point,post,rfl⟩ := List.exists_cons_of_ne_nil (l := rest) (by rintro rfl; simp [hsource] at hlt)
  rw [hsource,eraseIdx_length_append,← hsource,← shown_eq (ν := ν)] at herase
  refine ⟨k,pre,post,point,rfl,hsource,hr,?_,herase⟩
  rw [shown_eq,← hget,hsource]
  simp

theorem range_of_item_shown {proxyRow : ℤ} {point : MapPoint ρ} (h : QList.item (shown ν p) proxyRow = some point) :
    0 ≤ proxyRow ∧ proxyRow < rowCount ν p := by
  obtain ⟨hrow,hget⟩ := QList.item_eq_some_iff.mp h
  have hlt : proxyRow.toNat < (shown ν p).length := (List.getElem?_eq_some_iff.mp hget).1
  rw [rowCount_eq,← shown_eq (ν := ν)]
  omega

/-- Removing a row that is shown loses the source point that it shows and nothing else; a row that
is not shown is rejected. -/
theorem removeMapPoint_exact (proxyRow : ℤ) :
    if 0 ≤ proxyRow ∧ proxyRow < rowCount ν p then
      ∃ pre point post o, removeMapPoint ν qt p proxyRow = some o ∧ o.returned = true ∧
        p.source = pre ++ point :: post ∧ mapToSource ν p (index ν p proxyRow) = createIndex pre.length 0 ∧
        QList.item (shown ν p) proxyRow = some point ∧
        o.proxy = { p with source := pre ++ post } ∧ shown ν o.proxy = (shown ν p).eraseIdx proxyRow.toNat
    else removeMapPoint ν qt p proxyRow = some { proxy := p, returned := false } := by
  split
  · rename_i hrow
    obtain ⟨k,pre,post,point,rfl,hsource,hr,hpoint,herase⟩ := exists_shown p hrow
    refine ⟨pre,point,post,_,removeMapPoint_eq qt p hsource hr,rfl,hsource,mapToSource_index p hr,?_,rfl,?_⟩
    · rw [item_natCast,hpoint]
    · rw [shown_eq]
      exact herase
  · rename_i hrow
    exact if_pos (by omega)

end Remove

section Update

/-- What `updateMapPoint` does: it sends the role that the list model never writes. -/
theorem updateMapPoint_eq (proxyRow : ℤ) (value : ν) :
    p.updateMapPoint qt proxyRow value = some { proxy := p, returned := false } := by
  have hset : setData p.source (mapToSource ν p (p.index ν proxyRow)) value editRole =
      some { points := p.source, returned := false } := by
    by_cases hrow : 0 ≤ proxyRow ∧ proxyRow < rowCount ν p
    · obtain ⟨k,pre,post,point,rfl,hsource,hr,-,-⟩ := exists_shown p hrow
      rw [mapToSource_index p hr]
      exact setData_editRole (by simp [hsource]) value
    · rw [mapToSource_invalid p hrow]
      exact if_neg (by decide)
  unfold updateMapPoint
  rw [hset]
  rfl

variable (holds : MapPoint ρ → ν → Prop)

/-- An update of a row that is shown puts the value into the source point that it shows and into no
other, unless the value is there already; one of any other row is rejected. -/
def UpdateReaches (proxyRow : ℤ) (value : ν) : Prop :=
  ∃ o, updateMapPoint qt p proxyRow value = some o ∧
    if 0 ≤ proxyRow ∧ proxyRow < rowCount ν p then
      ∃ pre point post, p.source = pre ++ point :: post ∧
        mapToSource ν p (index ν p proxyRow) = createIndex pre.length 0 ∧
        QList.item (shown ν p) proxyRow = some point ∧
        (¬ holds point value → o.returned = true ∧
          ∃ point', holds point' value ∧ o.proxy.source = pre ++ point' :: post)
    else o.returned = false ∧ o.proxy.source = p.source

variable {holds p} in
theorem holds_of_updateReaches {proxyRow : ℤ} {value : ν} (h : UpdateReaches qt p holds proxyRow value)
    (hrow : 0 ≤ proxyRow ∧ proxyRow < rowCount ν p) {point : MapPoint ρ}
    (hpoint : QList.item (shown ν p) proxyRow = some point) : holds point value := by
  obtain ⟨o,ho,hreached⟩ := h
  rw [updateMapPoint_eq] at ho
  obtain rfl := Option.some.inj ho
  rw [if_pos hrow] at hreached
  obtain ⟨pre,point',post,-,-,hpoint',hupdated⟩ := hreached
  obtain rfl := Option.some.inj (hpoint.symm.trans hpoint')
  by_contra hne
  exact absurd (hupdated hne).1 Bool.false_ne_true

/-- Whatever it means for a point to hold a value, an update reaches the row exactly when no point that
lacks the value is shown there. -/
theorem updateMapPoint_reaches_iff (proxyRow : ℤ) (value : ν) : UpdateReaches qt p holds proxyRow value ↔
    ∀ point, QList.item (shown ν p) proxyRow = some point → holds point value := by
  constructor
  · intro h point hpoint
    exact holds_of_updateReaches qt h (range_of_item_shown p hpoint) hpoint
  · intro h
    refine ⟨_,updateMapPoint_eq qt p proxyRow value,?_⟩
    split
    · rename_i hrow
      obtain ⟨k,pre,post,point,rfl,hsource,hr,hpoint,-⟩ := exists_shown p hrow
      rw [← item_natCast] at hpoint
      exact ⟨pre,point,post,hsource,mapToSource_index p hr,hpoint,fun hne => absurd (h point hpoint) hne⟩
    · exact ⟨rfl,rfl⟩

end Update

/-- The value is what the point shows under a role, once converted for it. -/
def HoldsAs (role : ℤ) (point : MapPoint ρ) (value : ν) : Prop := converted value role = some (roleData point role)

/-- A single point, and nothing is hidden. -/
def onePoint : MapPointsFilterProxyModel Unit where
  source := [default]

/-- There is no role under which updates reach the point. -/
theorem updateMapPoint_never_reaches : ¬ ∃ role, ∀ (qt : QSortFilterProxyModel)
    (p : MapPointsFilterProxyModel Unit) (proxyRow : ℤ) (value : PlainVariant),
    UpdateReaches qt p (HoldsAs role) proxyRow value := by
  rintro ⟨role,h⟩
  have hheld : HoldsAs role (default : MapPoint Unit) (.number 7 : PlainVariant) :=
    holds_of_updateReaches rangeProxy (h rangeProxy onePoint 0 (.number 7)) (by decide) (by decide)
  unfold HoldsAs converted roleData at hheld
  by_cases hname : role = nameRole
  · rw [if_pos hname,if_pos hname] at hheld
    exact absurd hheld (by decide)
  · by_cases hindex : role = indexRole
    · rw [if_neg hname,if_pos hindex,if_neg hname,if_pos hindex] at hheld
      exact absurd hheld (by decide)
    · rw [if_neg hname,if_neg hindex] at hheld
      cases hheld

end FDemo.MapModel.MapPointsFilterProxyModel
