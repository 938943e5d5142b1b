import FDemo.MapModel.ProxyEdits

/-! # What the filter proxy shows over a history of edits

The proxy of Qt keeps for every source row whether it was accepted, and asks
`filterAcceptsRow` again only for rows that the source announces, or for all of
them after `invalidateFilter`. That is enough for the rows shown to be the rows
accepted now. The filter reads the index of a point, so they are the rows of
the wanted type exactly as long as the index stands in for the type.
-/
namespace FDemo.MapModel
open MapPointListModel MapPointsFilterProxyModel

/-- The answers for the rows `first..last`. -/
def asked (accepts : ℤ → Bool) (first last : ℤ) : List Bool :=
  (List.range (last + 1 - first).toNat).map fun i : ℕ => accepts (first + i)

/-- How the proxy of Qt keeps the answers of `filterAcceptsRow`: new rows and changed rows are asked,
the others keep their answer. -/
structure RowFilter extends QSortFilterProxyModel where
  ask : List Bool → Announcement → (accepts : ℤ → Bool) → List Bool
  askAll : List Bool → (count : ℤ) → (accepts : ℤ → Bool) → List Bool
  ask_inserted : ∀ kept first last accepts, ask kept (.inserted first last) accepts =
    kept.take first.toNat ++ asked accepts first last ++ kept.drop first.toNat
  ask_removed : ∀ kept first last accepts, ask kept (.removed first last) accepts =
    kept.take first.toNat ++ kept.drop (max first (last + 1)).toNat
  ask_dataChanged : ∀ kept i role accepts, ask kept (.dataChanged i role) accepts =
    kept.set i.row.toNat (accepts i.row)
  askAll_eq : ∀ kept count accepts, askAll kept count accepts = asked accepts 0 (count - 1)

def rowFilter : RowFilter where
  toQSortFilterProxyModel := rangeProxy
  ask kept a accepts :=
    match a with
    | .inserted first last => kept.take first.toNat ++ asked accepts first last ++ kept.drop first.toNat
    | .removed first last => kept.take first.toNat ++ kept.drop (max first (last + 1)).toNat
    | .dataChanged i _ => kept.set i.row.toNat (accepts i.row)
  askAll _ count accepts := asked accepts 0 (count - 1)
  ask_inserted _ _ _ _ := rfl
  ask_removed _ _ _ _ := rfl
  ask_dataChanged _ _ _ _ := rfl
  askAll_eq _ _ _ := rfl

/-- A proxy with the answer that it keeps for each source row. -/
structure FilteredProxy (ρ : Type*) where
  proxy : MapPointsFilterProxyModel ρ
  kept : List Bool

/-- An edit of the source or a change of the filter. -/
inductive FilterEvent (ν : Type*) where
  | source (call : Call ν)
  | setFilterTypeID (typeID : Int32)

namespace FilteredProxy

/-- The source rows that are shown, in source order. -/
def rows {ρ : Type*} (s : FilteredProxy ρ) : List ℕ := acceptedAt id s.kept

section Steps
variable {ν ρ : Type*} [QVariant ν] [Inhabited ρ] (qt : RowFilter)

/-- A proxy that has just got its source has asked for every row. -/
def start (ν : Type*) [QVariant ν] (p : MapPointsFilterProxyModel ρ) : FilteredProxy ρ where
  proxy := p
  kept := asked (filterAcceptsRow ν p) 0 (MapPointListModel.rowCount p.source - 1)

def step (s : FilteredProxy ρ) : FilterEvent ν → Option (FilteredProxy ρ)
  | .source call => (call.run s.proxy.source).map fun o => {
      proxy := { s.proxy with source := o.points }
      kept := o.announced.foldl
        (fun kept a => qt.ask kept a.1 (filterAcceptsRow ν { s.proxy with source := a.2 })) s.kept }
  | .setFilterTypeID typeID =>
    let changed := (s.proxy.setFilterTypeID ν qt.toQSortFilterProxyModel typeID).proxy
    -- the value that is set already does not invalidate anything
    some {
      proxy := changed
      kept := if s.proxy.filterTypeID ≠ typeID then
          qt.askAll s.kept (QList.count changed.source) (filterAcceptsRow ν changed)
        else s.kept }

def run (s : FilteredProxy ρ) (events : List (FilterEvent ν)) : Option (FilteredProxy ρ) := events.foldlM (step qt) s

end Steps

section Fresh
variable {ν ρ : Type*} [QVariant ν]

/-- Every answer that is kept is what `filterAcceptsRow` says now. -/
def Fresh (ν : Type*) [QVariant ν] (s : FilteredProxy ρ) : Prop :=
  s.kept = asked (filterAcceptsRow ν s.proxy) 0 (MapPointListModel.rowCount s.proxy.source - 1)

/-- The filter on a row as observers read it. -/
def acceptsRow (filterTypeID : Int32) (row : Row ν) : Bool :=
  filterTypeID = -1 || QVariant.toInt row.2.1 = filterTypeID

theorem filterAcceptsRow_eq_acceptsRow (p : MapPointsFilterProxyModel ρ) (row : ℤ) :
    filterAcceptsRow ν p row = acceptsRow p.filterTypeID (readRow p.source row : Row ν) := by
  unfold filterAcceptsRow acceptsRow
  split
  · rename_i hall
    simp [hall]
  · rename_i hall
    rw [decide_eq_false hall,Bool.false_or]
    rfl

theorem asked_eq (p : MapPointsFilterProxyModel ρ) (first last : ℤ) : asked (filterAcceptsRow ν p) first last =
    (readRows p.source first last : List (Row ν)).map (acceptsRow p.filterTypeID) := by
  unfold asked readRows
  rw [List.map_map]
  exact List.map_congr_left fun i _ => filterAcceptsRow_eq_acceptsRow p _

theorem fresh_iff {s : FilteredProxy ρ} : Fresh ν s ↔
    s.kept = (MapModel.rows s.proxy.source : List (Row ν)).map (acceptsRow s.proxy.filterTypeID) := by
  unfold Fresh
  rw [asked_eq]
  rfl

/-- The proxy keeps its answers up to date as an observer keeps its rows. -/
theorem ask_eq_follow (qt : RowFilter) (p : MapPointsFilterProxyModel ρ) (view : List (Row ν))
    (a : Announcement × List (MapPoint ρ)) :
    qt.ask (view.map (acceptsRow p.filterTypeID)) a.1 (filterAcceptsRow ν { p with source := a.2 }) =
      (follow view a).map (acceptsRow p.filterTypeID) := by
  obtain ⟨announcement,after⟩ := a
  cases announcement with
  | inserted first last =>
    rw [qt.ask_inserted,asked_eq]
    simp only [follow,List.map_append,List.map_take,List.map_drop]
  | removed first last =>
    rw [qt.ask_removed]
    simp only [follow,List.map_append,List.map_take,List.map_drop]
  | dataChanged i role =>
    rw [qt.ask_dataChanged,filterAcceptsRow_eq_acceptsRow]
    simp only [follow,List.map_set]

theorem foldl_ask_eq_followAll (qt : RowFilter) (p : MapPointsFilterProxyModel ρ) (view : List (Row ν))
    (as : List (Announcement × List (MapPoint ρ))) :
    as.foldl (fun kept a => qt.ask kept a.1 (filterAcceptsRow ν { p with source := a.2 }))
      (view.map (acceptsRow p.filterTypeID)) = (followAll view as).map (acceptsRow p.filterTypeID) := by
  induction as generalizing view with
  | nil => rfl
  | cons a as ih =>
    rw [List.foldl_cons,ask_eq_follow,ih]
    rfl

variable [Inhabited ρ] {qt : RowFilter} {s s' : FilteredProxy ρ}

omit [Inhabited ρ] in
theorem fresh_start (p : MapPointsFilterProxyModel ρ) : Fresh ν (start ν p) := rfl

/-- Asking for the announced rows is enough. -/
theorem fresh_step {event : FilterEvent ν} (hfresh : Fresh ν s) (h : step qt s event = some s') : Fresh ν s' := by
  cases event with
  | source call =>
    obtain ⟨o,hrun,rfl⟩ := Option.map_eq_some_iff.mp h
    have hfollowed : followAll (MapModel.rows s.proxy.source : List (Row ν)) o.announced = MapModel.rows o.points :=
      Call.followed_of_run hrun
    rw [fresh_iff] at hfresh ⊢
    dsimp only
    rw [hfresh,foldl_ask_eq_followAll,hfollowed]
  | setFilterTypeID typeID =>
    obtain rfl := Option.some.inj h
    unfold Fresh
    dsimp only
    by_cases hne : s.proxy.filterTypeID ≠ typeID
    · rw [if_pos hne,qt.askAll_eq]
      rfl
    · rw [if_neg hne,setFilterTypeID,if_neg hne]
      exact hfresh

theorem fresh_run {events : List (FilterEvent ν)} (hfresh : Fresh ν s) (h : run qt s events = some s') :
    Fresh ν s' := by
  induction events generalizing s with
  | nil =>
    obtain rfl := Option.some.inj h
    exact hfresh
  | cons event events ih =>
    rw [run,List.foldlM_cons] at h
    obtain ⟨next,hstep,hrest⟩ := Option.bind_eq_some_iff.mp h
    exact ih (fresh_step hfresh hstep) hrest

omit [Inhabited ρ] in
theorem kept_of_fresh (hfresh : Fresh ν s) : s.kept = s.proxy.source.map (accepts s.proxy.filterTypeID) := by
  rw [fresh_iff.mp hfresh,rows_eq,List.map_map]
  apply List.map_congr_left
  intro point _
  have hindex : (cells point : Row ν).2.1 = QVariant.ofInt point.index := rfl
  simp only [Function.comp_apply,acceptsRow,accepts,hindex,QVariant.toInt_ofInt]

omit [Inhabited ρ] in
theorem rows_of_fresh (hfresh : Fresh ν s) : s.rows = acceptedAt (accepts s.proxy.filterTypeID) s.proxy.source := by
  rw [rows,kept_of_fresh hfresh,acceptedAt_map]
  rfl

/-- After every run the proxy shows the rows that it would show if it asked for all of them. -/
theorem rows_run {p : MapPointsFilterProxyModel ρ} {events : List (FilterEvent ν)}
    (h : run qt (start ν p) events = some s) : s.rows = shownRows ν s.proxy := by
  rw [rows_of_fresh (fresh_run (fresh_start p) h),shownRows_eq]

end Fresh
end FilteredProxy

/-- A filter for the type sees of the point what a filter for the index sees. -/
def Agreeing {ρ : Type*} (filterTypeID : Int32) (point : MapPoint ρ) : Prop :=
  filterTypeID = -1 ∨ (point.index = filterTypeID ↔ point.typeID = filterTypeID)

def AgreesOn {ρ : Type*} (p : MapPointsFilterProxyModel ρ) : Prop := ∀ point ∈ p.source, Agreeing p.filterTypeID point

/-- What the event brings in, be it points, an index or a filter, agrees. -/
def FilterEvent.Agrees {ν ρ : Type*} [QVariant ν] [Inhabited ρ] (p : MapPointsFilterProxyModel ρ) : FilterEvent ν → Prop
  | source (.append _) =>
    Agreeing p.filterTypeID { (default : MapPoint ρ) with index := Int32.ofInt (MapPointListModel.rowCount p.source % 2) }
  | source (.setData row value role) => role = indexRole → ∀ point, QList.item p.source row = some point →
    Agreeing p.filterTypeID { point with index := QVariant.toInt value }
  | source (.insertRows _ _) => True
  | source (.removeRows _ _) => True
  | setFilterTypeID typeID => ∀ point ∈ p.source, Agreeing typeID point

section Edits
variable {ν ρ : Type*} [QVariant ν] [Inhabited ρ] {filterTypeID : Int32}

theorem mem_insertLoop {position : ℤ} {n : ℕ} {points points' : List (MapPoint ρ)}
    (h : insertLoop position n points = some points') {point : MapPoint ρ} (hmem : point ∈ points') :
    point ∈ points ∨ point = default := by
  induction n generalizing points with
  | zero =>
    obtain rfl := Option.some.inj h
    exact Or.inl hmem
  | succ n ih =>
    obtain ⟨next,hinsert,hrest⟩ := Option.bind_eq_some_iff.mp h
    obtain ⟨hrange,rfl⟩ := QList.insert_eq_some_iff.mp hinsert
    have hle : position.toNat ≤ points.length := by
      unfold QList.count at hrange
      omega
    rcases ih hrest with hnext | hnew
    · exact ((List.mem_insertIdx hle).mp hnext).symm
    · exact Or.inr hnew

omit [Inhabited ρ] in
theorem mem_removeLoop {position : ℤ} {n : ℕ} {points points' : List (MapPoint ρ)}
    (h : removeLoop position n points = some points') {point : MapPoint ρ} (hmem : point ∈ points') :
    point ∈ points := by
  induction n generalizing points with
  | zero =>
    obtain rfl := Option.some.inj h
    exact hmem
  | succ n ih =>
    obtain ⟨next,hremove,hrest⟩ := Option.bind_eq_some_iff.mp h
    obtain ⟨-,rfl⟩ := QList.removeAt_eq_some_iff.mp hremove
    exact List.mem_of_mem_eraseIdx (ih hrest)

theorem agreeing_default : Agreeing filterTypeID (default : MapPoint ρ) := Or.inr Iff.rfl

omit [Inhabited ρ] in
/-- Only a write of the index can make a point disagree. -/
theorem agreeing_written_iff {point : MapPoint ρ} (hagree : Agreeing filterTypeID point) (value : ν) (role : ℤ) :
    Agreeing filterTypeID (written point value role) ↔
      (role = indexRole → Agreeing filterTypeID { point with index := QVariant.toInt value }) := by
  unfold written
  split
  · rename_i hname
    have hne : role ≠ indexRole := by
      rw [hname]
      decide
    exact ⟨fun _ hindex => absurd hindex hne,fun _ => hagree⟩
  · split
    · rename_i hindex
      exact ⟨fun h _ => h,fun h => h hindex⟩
    · rename_i hne
      exact ⟨fun _ hindex => absurd hindex hne,fun _ => hagree⟩

omit [Inhabited ρ] in
theorem agreesOn_set_iff {points : List (MapPoint ρ)} {row : ℕ} (hrow : row < points.length)
    (hagree : ∀ point ∈ points, Agreeing filterTypeID point) {point' : MapPoint ρ} :
    (∀ point ∈ points.set row point', Agreeing filterTypeID point) ↔ Agreeing filterTypeID point' := by
  constructor
  · exact fun h => h point' (List.mem_set hrow point')
  · intro h point hmem
    rcases List.mem_or_eq_of_mem_set hmem with hold | rfl
    · exact hagree point hold
    · exact h

end Edits

namespace FilteredProxy
variable {ν ρ : Type*} [QVariant ν] [Inhabited ρ] {qt : RowFilter} {s s' : FilteredProxy ρ}

/-- What an edit of the source leaves agrees exactly when what it brings in does. -/
theorem agreesOn_call_iff {call : Call ν} {o : Outcome ρ} (hrun : call.run s.proxy.source = some o)
    (hagree : AgreesOn s.proxy) :
    AgreesOn { s.proxy with source := o.points } ↔ (FilterEvent.source call).Agrees s.proxy := by
  cases call with
  | append name =>
    obtain ⟨o',ho',hpoints⟩ := append_points (ν := ν) s.proxy.source name
    obtain rfl := Option.some.inj (hrun.symm.trans ho')
    unfold AgreesOn
    rw [hpoints]
    simp only [List.forall_mem_append,List.forall_mem_singleton]
    exact and_iff_right hagree
  | setData row value role =>
    have hset : MapPointListModel.setData s.proxy.source (MapPointListModel.index row 0 {}) value role = some o := hrun
    rw [index_eq] at hset
    by_cases hrow : 0 ≤ row
    · obtain ⟨r,rfl⟩ := Int.eq_ofNat_of_zero_le hrow
      cases hpoint : s.proxy.source[r]? with
      | none =>
        rw [setData_natCast,hpoint] at hset
        cases hset
      | some point =>
        obtain ⟨hlt,-⟩ := List.getElem?_eq_some_iff.mp hpoint
        obtain ⟨o',ho',hpoints⟩ := setData_points hpoint value role
        obtain rfl := Option.some.inj (hset.symm.trans ho')
        unfold AgreesOn
        rw [hpoints,agreesOn_set_iff hlt hagree,agreeing_written_iff (hagree point (List.mem_of_getElem? hpoint))]
        simp only [FilterEvent.Agrees,item_natCast,hpoint,Option.some.injEq,forall_eq']
    · rcases setData_cases hset with rfl | ⟨h0,-⟩
      · exact iff_of_true hagree fun _ point hitem => absurd (QList.item_eq_some_iff.mp hitem).1 hrow
      · exact absurd h0 hrow
  | insertRows position rows =>
    obtain ⟨points',hloop,rfl⟩ := Option.map_eq_some_iff.mp (insertRows_eq_some_iff.mp hrun).2
    refine iff_of_true (fun point hmem => ?_) trivial
    rcases mem_insertLoop hloop hmem with hold | rfl
    · exact hagree point hold
    · exact agreeing_default
  | removeRows position rows =>
    obtain ⟨points',hloop,rfl⟩ := Option.map_eq_some_iff.mp (removeRows_eq_some_iff.mp hrun).2
    exact iff_of_true (fun point hmem => hagree point (mem_removeLoop hloop hmem)) trivial

omit [Inhabited ρ] in
theorem setFilterTypeID_proxy (p : MapPointsFilterProxyModel ρ) (typeID : Int32) :
    (p.setFilterTypeID ν qt.toQSortFilterProxyModel typeID).proxy = { p with filterTypeID := typeID } := by
  unfold setFilterTypeID
  split
  · rfl
  · rename_i heq
    rw [← not_not.mp heq]

theorem agreesOn_step_iff {event : FilterEvent ν} (h : step qt s event = some s') (hagree : AgreesOn s.proxy) :
    AgreesOn s'.proxy ↔ event.Agrees s.proxy := by
  cases event with
  | source call =>
    obtain ⟨o,hrun,rfl⟩ := Option.map_eq_some_iff.mp h
    exact agreesOn_call_iff hrun hagree
  | setFilterTypeID typeID =>
    obtain rfl := Option.some.inj h
    dsimp only
    rw [setFilterTypeID_proxy]
    rfl

/-- An event without a result brings nothing in. -/
theorem agrees_of_step_eq_none {event : FilterEvent ν} (h : step qt s event = none) : event.Agrees s.proxy := by
  cases event with
  | source call =>
    have hrun : call.run s.proxy.source = none := Option.map_eq_none_iff.mp h
    cases call with
    | append name =>
      obtain ⟨o,ho,-⟩ := append_points (ν := ν) s.proxy.source name
      exact absurd (ho.symm.trans hrun) (Option.some_ne_none o)
    | setData row value role =>
      intro _ point hitem
      have hset : MapPointListModel.setData s.proxy.source (MapPointListModel.index row 0 {}) value role = none := hrun
      unfold setData at hset
      rw [index_eq] at hset
      split at hset
      · rw [createIndex_row,hitem] at hset
        cases hset
      · cases hset
    | insertRows position rows => trivial
    | removeRows position rows => trivial
  | setFilterTypeID typeID => cases h

/-- The point is of the type that the filter is set to. -/
def ofType (filterTypeID : Int32) (point : MapPoint ρ) : Bool := filterTypeID = -1 || point.typeID = filterTypeID

def ShowsType (s : FilteredProxy ρ) : Prop := s.rows = acceptedAt (ofType s.proxy.filterTypeID) s.proxy.source

omit [Inhabited ρ] in
/-- The filter reads the index, so it shows a type exactly when the source agrees. -/
theorem showsType_iff (hfresh : Fresh ν s) : ShowsType s ↔ AgreesOn s.proxy := by
  unfold ShowsType AgreesOn Agreeing
  rw [rows_of_fresh hfresh,acceptedAt_eq_iff]
  apply forall₂_congr
  intro point _
  unfold accepts ofType
  by_cases hall : s.proxy.filterTypeID = -1 <;> simp [hall]

/-- The rows of the wanted type are shown at the start of a run and after each of its events. -/
def ShownByType (qt : RowFilter) : FilteredProxy ρ → List (FilterEvent ν) → Prop
  | s, [] => ShowsType s
  | s, event :: events => ShowsType s ∧ ∀ s', step qt s event = some s' → ShownByType qt s' events

/-- What the events of a run bring in agrees. -/
def AllAgree (qt : RowFilter) : FilteredProxy ρ → List (FilterEvent ν) → Prop
  | _, [] => True
  | s, event :: events => event.Agrees s.proxy ∧ ∀ s', step qt s event = some s' → AllAgree qt s' events

theorem shownByType_iff_of_fresh (hfresh : Fresh ν s) (events : List (FilterEvent ν)) :
    ShownByType qt s events ↔ AgreesOn s.proxy ∧ AllAgree qt s events := by
  induction events generalizing s with
  | nil => exact (showsType_iff hfresh).trans (and_iff_left trivial).symm
  | cons event events ih =>
    constructor
    · rintro ⟨hshows,hrest⟩
      have hagree := (showsType_iff hfresh).mp hshows
      refine ⟨hagree,?_,fun s' hstep => ((ih (fresh_step hfresh hstep)).mp (hrest s' hstep)).2⟩
      cases hstep : step qt s event with
      | none => exact agrees_of_step_eq_none hstep
      | some s' =>
        exact (agreesOn_step_iff hstep hagree).mp ((ih (fresh_step hfresh hstep)).mp (hrest s' hstep)).1
    · rintro ⟨hagree,hevent,hrest⟩
      refine ⟨(showsType_iff hfresh).mpr hagree,fun s' hstep => ?_⟩
      exact (ih (fresh_step hfresh hstep)).mpr ⟨(agreesOn_step_iff hstep hagree).mpr hevent,hrest s' hstep⟩

/-- The rows of the wanted type are shown over exactly the runs on which the source and everything that
is brought in agree. -/
theorem shownByType_iff_allAgree (qt : RowFilter) (p : MapPointsFilterProxyModel ρ) (events : List (FilterEvent ν)) :
    ShownByType qt (start ν p) events ↔ AgreesOn p ∧ AllAgree qt (start ν p) events :=
  shownByType_iff_of_fresh (fresh_start p) events

/-- A point of type 2 with the index 1. -/
def indexedOtherwise : MapPointsFilterProxyModel Unit where
  source := [{ index := 1, typeID := 2, rest := () }]
  filterTypeID := 2

theorem type_hidden : ¬ ∀ (qt : RowFilter) (p : MapPointsFilterProxyModel Unit)
    (events : List (FilterEvent PlainVariant)), ShownByType qt (start PlainVariant p) events := by
  intro h
  have hshown : (start PlainVariant indexedOtherwise).rows = acceptedAt (ofType 2) indexedOtherwise.source :=
    h rowFilter indexedOtherwise []
  exact absurd hshown (by decide)

end FilteredProxy
end FDemo.MapModel
