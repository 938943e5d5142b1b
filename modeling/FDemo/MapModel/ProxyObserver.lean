import FDemo.MapModel.ProxyEdits

/-! # Observers of the filter proxy

An observer that only counts the rows that the proxy announces keeps the right
count exactly as long as no point is added and no shown point removed: the proxy
of Qt announces such a change by itself, and the subclass announces it again.
-/
namespace FDemo.MapModel
open MapPointListModel MapPointsFilterProxyModel

inductive ProxyCall (ν : Type*) where
  | addMapPoint (value : ν)
  | removeMapPoint (proxyRow : ℤ)
  | updateMapPoint (proxyRow : ℤ) (value : ν)
  | setFilterTypeID (typeID : Int32)

variable {ν ρ : Type*} [QVariant ν] [Inhabited ρ] (qt : QSortFilterProxyModel)

def ProxyCall.run (p : MapPointsFilterProxyModel ρ) : ProxyCall ν → Option (MapPointsFilterProxyModel.Outcome ρ)
  | addMapPoint value => p.addMapPoint qt value
  | removeMapPoint proxyRow => p.removeMapPoint ν qt proxyRow
  | updateMapPoint proxyRow value => p.updateMapPoint qt proxyRow value
  | setFilterTypeID typeID => some (p.setFilterTypeID ν qt typeID)

/-- Over a run of calls, the count of announced rows is the row count after each call. -/
def Counted : MapPointsFilterProxyModel ρ → ℤ → List (ProxyCall ν) → Prop
  | _, _, [] => True
  | p, count, call :: calls => ∃ o, call.run qt p = some o ∧ count + net o.announced = rowCount ν o.proxy ∧
      Counted o.proxy (count + net o.announced) calls

/-- The call neither adds a point nor removes one that is shown. -/
def ProxyCall.Keeps (p : MapPointsFilterProxyModel ρ) : ProxyCall ν → Prop
  | addMapPoint _ => False
  | removeMapPoint proxyRow => ¬ (0 ≤ proxyRow ∧ proxyRow < rowCount ν p)
  | updateMapPoint _ _ => True
  | setFilterTypeID _ => True

def AllKeep : MapPointsFilterProxyModel ρ → List (ProxyCall ν) → Prop
  | _, [] => True
  | p, call :: calls => call.Keeps p ∧ ∀ o, call.run qt p = some o → AllKeep o.proxy calls

omit [Inhabited ρ] in
theorem acceptedIn_all (p : MapPointsFilterProxyModel ρ) :
    acceptedIn (filterAcceptsRow ν p) 0 (QList.count p.source - 1) = rowCount ν p := by
  have hcount : (QList.count p.source - 1 + 1 - 0).toNat = p.source.length := by
    unfold QList.count
    omega
  unfold acceptedIn MapPointsFilterProxyModel.rowCount shownRows QList.count
  rw [show ((p.source.length : ℤ) - 1 + 1 - 0).toNat = p.source.length from hcount,List.countP_eq_length_filter]
  simp

omit [Inhabited ρ] in
theorem acceptedIn_one {p : MapPointsFilterProxyModel ρ} {pre post : List (MapPoint ρ)} {point : MapPoint ρ}
    (hsource : p.source = pre ++ point :: post) :
    acceptedIn (filterAcceptsRow ν p) pre.length pre.length = (accepts p.filterTypeID point).toInt := by
  have hget : p.source[pre.length]? = some point := by simp [hsource]
  have hrow : filterAcceptsRow ν p (pre.length + (0 : ℕ)) = accepts p.filterTypeID point := filterAcceptsRow_eq p hget
  have hone : ((pre.length : ℤ) + 1 - pre.length).toNat = 1 := by omega
  unfold acceptedIn
  rw [hone,show List.range 1 = [0] from rfl,List.countP_singleton,hrow]
  cases accepts p.filterTypeID point <;> rfl

section Steps
variable {p : MapPointsFilterProxyModel ρ} {o : MapPointsFilterProxyModel.Outcome ρ}

/-- Adding a point announces one row too many. -/
theorem net_addMapPoint {value : ν} (h : p.addMapPoint qt value = some o) :
    rowCount ν p + net o.announced = rowCount ν o.proxy + 1 := by
  obtain ⟨pre,post,hsource,hrow⟩ := exists_split_rowCount (ν := ν) p
  rw [addMapPoint_eq qt p hsource hrow] at h
  obtain rfl := Option.some.inj h
  have hone := acceptedIn_one (ν := ν) (p := { p with source := pre ++ default :: post }) rfl
  rw [net_append,qt.inserted_once,hone,rowCount_eq,rowCount_eq,hsource]
  simp only [net,Announcement.net,List.map_cons,List.map_nil,List.sum_cons,List.sum_nil,List.filter_append,
    List.filter_cons,List.length_append]
  cases accepts p.filterTypeID (default : MapPoint ρ) with
  | false => simp
  | true =>
    simp
    omega

omit [Inhabited ρ] in
/-- Removing a point that is shown announces one row too many. -/
theorem net_removeMapPoint {proxyRow : ℤ} (hrow : 0 ≤ proxyRow ∧ proxyRow < rowCount ν p)
    (h : p.removeMapPoint ν qt proxyRow = some o) : rowCount ν p + net o.announced = rowCount ν o.proxy - 1 := by
  obtain ⟨k,pre,post,point,rfl,hsource,hr,hpoint,herase⟩ := exists_shown p hrow
  rw [removeMapPoint_eq qt p hsource hr] at h
  obtain rfl := Option.some.inj h
  have hone := acceptedIn_one (ν := ν) hsource
  have haccepted : accepts p.filterTypeID point = true := by
    have hmem := List.mem_of_getElem? hpoint
    rw [shown_eq] at hmem
    exact (List.mem_filter.mp hmem).2
  rw [net_append,net_append,qt.removed_once,qt.refiltered_once,hone,haccepted,rowCount_eq,rowCount_eq,hsource]
  simp only [net,Announcement.net,List.map_cons,List.map_nil,List.sum_cons,List.sum_nil,List.filter_append,
    List.filter_cons_of_pos haccepted,List.length_append,List.length_cons]
  simp only [Bool.toInt_true]
  omega

omit [Inhabited ρ] in
theorem net_setFilterTypeID (p : MapPointsFilterProxyModel ρ) (typeID : Int32) :
    rowCount ν p + net (p.setFilterTypeID ν qt typeID).announced = rowCount ν (p.setFilterTypeID ν qt typeID).proxy := by
  unfold setFilterTypeID
  split
  · have hbefore := acceptedIn_all (ν := ν) p
    have hafter := acceptedIn_all (ν := ν) { p with filterTypeID := typeID }
    dsimp only at hafter ⊢
    rw [qt.refiltered_once,hbefore,hafter]
    omega
  · exact Int.add_zero _

end Steps

theorem ProxyCall.counted_iff_keeps (p : MapPointsFilterProxyModel ρ) (call : ProxyCall ν) :
    ∃ o, call.run qt p = some o ∧ (rowCount ν p + net o.announced = rowCount ν o.proxy ↔ call.Keeps p) := by
  cases call with
  | addMapPoint value =>
    obtain ⟨pre,post,hsource,hrow⟩ := exists_split_rowCount (ν := ν) p
    have hadd := addMapPoint_eq qt p hsource hrow value
    refine ⟨_,hadd,fun heq => ?_,False.elim⟩
    have := net_addMapPoint qt hadd
    omega
  | removeMapPoint proxyRow =>
    by_cases hrow : 0 ≤ proxyRow ∧ proxyRow < rowCount ν p
    · obtain ⟨k,pre,post,point,rfl,hsource,hr,-,-⟩ := exists_shown p hrow
      have hremove := removeMapPoint_eq qt p hsource hr
      refine ⟨_,hremove,fun heq => ?_,fun h => absurd hrow h⟩
      have := net_removeMapPoint qt hrow hremove
      omega
    · exact ⟨_,if_pos (by omega),fun _ => hrow,fun _ => Int.add_zero _⟩
  | updateMapPoint proxyRow value =>
    exact ⟨_,updateMapPoint_eq qt p proxyRow value,fun _ => trivial,fun _ => Int.add_zero _⟩
  | setFilterTypeID typeID =>
    exact ⟨_,rfl,fun _ => trivial,fun _ => net_setFilterTypeID qt p typeID⟩

/-- The announced rows add up exactly over the runs that neither add a point nor remove one that is
shown. -/
theorem counted_iff_allKeep (p : MapPointsFilterProxyModel ρ) (calls : List (ProxyCall ν)) :
    Counted qt p (rowCount ν p) calls ↔ AllKeep qt p calls := by
  induction calls generalizing p with
  | nil => exact Iff.rfl
  | cons call calls ih =>
    obtain ⟨o,hrun,hiff⟩ := call.counted_iff_keeps qt p
    constructor
    · rintro ⟨o',hrun',hcount,hrest⟩
      obtain rfl := Option.some.inj (hrun.symm.trans hrun')
      refine ⟨hiff.mp hcount,fun o' hrun' => ?_⟩
      obtain rfl := Option.some.inj (hrun.symm.trans hrun')
      rw [hcount,ih] at hrest
      exact hrest
    · rintro ⟨hkeeps,hrest⟩
      have hcount := hiff.mpr hkeeps
      exact ⟨o,hrun,hcount,by rw [hcount]; exact (ih o.proxy).mpr (hrest o hrun)⟩

theorem addMapPoint_counted_twice : ¬ ∀ (qt : QSortFilterProxyModel) (p : MapPointsFilterProxyModel Unit)
    (calls : List (ProxyCall PlainVariant)), Counted qt p (rowCount PlainVariant p) calls := by
  intro h
  obtain ⟨o,hrun,hcount,-⟩ := h rangeProxy { source := [] } [.addMapPoint .invalid]
  have := net_addMapPoint rangeProxy hrun
  omega

end FDemo.MapModel
