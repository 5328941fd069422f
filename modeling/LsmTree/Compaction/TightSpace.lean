import LsmTree.Compaction.MergeOutputs
import LsmTree.Compaction.StreamReads
import LsmTree.Table.Restriction
import LsmTree.Theory.Transition

/-! Tight-space compaction: the inputs are merged in key slices, each installed by one version edit,
and then punched out of the input files. A crash leaves the last version installed. -/
namespace LsmTree

open List

variable {K V : Type*}

namespace Version

variable {T T' : Type*}

def map (f : T → T') (v : Version T) : Version T' := ⟨v.levels.map (List.map (List.map f))⟩

theorem tables_map (f : T → T') (v : Version T) : (v.map f).tables = v.tables.map f := by
  simp [tables, map, map_flatten]

def swapRestricted (restricted : List (TableView K V)) (t : TableView K V) : TableView K V :=
  (restricted.find? (·.table.id == t.table.id)).getD t

theorem swapRestricted_id (restricted : List (TableView K V)) (t : TableView K V) :
    (swapRestricted restricted t).table.id = t.table.id := by
  rw [swapRestricted]
  cases hfind : restricted.find? (·.table.id == t.table.id) with
  | none => rfl
  | some u => exact eq_of_beq (find?_some (p := fun u : TableView K V => u.table.id == _)
      hfind)

theorem swapRestricted_of_ne {restricted : List (TableView K V)} {t : TableView K V}
    (h : ∀ u ∈ restricted, u.table.id ≠ t.table.id) : swapRestricted restricted t = t := by
  have hnone : restricted.find? (·.table.id == t.table.id) = none :=
    find?_eq_none.2 fun u hu => by simpa using h u hu
  rw [swapRestricted, hnone]
  rfl

def withTightSlice [LinearOrder K] (v : Version (TableView K V))
    (restricted : List (TableView K V)) (removedIds : List ℕ) (outputs : List (TableView K V))
    (destLevel : ℕ) : Version (TableView K V) :=
  (v.map (swapRestricted restricted)).replaceTables removedIds outputs destLevel (destLevel == 0)

end Version

section NoMarker

variable [LinearOrder K]

/-- No output is made of range tombstones only; such a table gets an entry of its own. -/
def MergeJob.NoMarker (j : MergeJob K V) : Prop :=
  j.rangeTombstones = [] ∨ ∀ w ∈ windows j.outputFull j.items, w.items ≠ []

instance [DecidableEq V] (j : MergeJob K V) : Decidable j.NoMarker :=
  inferInstanceAs (Decidable (_ ∨ _))

variable [RawKey K] [Inhabited V]

theorem MergeJob.outputs_entries {j : MergeJob K V} (h : j.NoMarker) :
    j.outputs.flatMap (·.entries) = j.items := writeAll_contents h

end NoMarker

structure TightSpace (K V : Type*) where
  tableIds : List ℕ
  destLevel : ℕ
  mvccGcWatermark : ℕ
  mergeOperator : Option (MergeOperator K V)
  /-- by slice and by table of the slice -/
  outputFull : ℕ → ℕ → List (InternalValue K V) → Bool
  newTableIds : ℕ → ℕ → ℕ
  layout : BlockLayout K V

namespace TightSpace

structure State (K V : Type*) where
  version : Version (TableView K V)
  rangeTombstones : List (RangeTombstone K)
  currentViews : List (TableView K V)
  lower : Option K
  slices : ℕ
  /-- the tail is installed -/
  finished : Bool
  /-- the outputs installed so far -/
  created : List (Table K V)
  /-- `punch_on_drop` of the prior views, by table -/
  armed : List (Table K V × ℕ)
  /-- the blocks punched so far, by table id and offset -/
  punched : List (ℕ × ℕ)

inductive Event (K : Type*) where
  | slice (boundary : K)
  | tail
  /-- the last reader of a prior view is gone -/
  | reclaim (i : ℕ)
  /-- an open re-derives the reclaims from the committed bounds -/
  | reopen

variable [LinearOrder K]

section Boundaries

/-- One block end key on the way through the sorted ones. -/
def boundaryStep (budget : ℕ) (globalMax : Option K) (acc : List K × ℕ) (block : K × ℕ) :
    List K × ℕ :=
  if budget ≤ acc.2 + block.2 ∧ globalMax ≠ some block.1 ∧ acc.1.getLast? ≠ some block.1 then
    (acc.1 ++ [block.1], 0)
  else (acc.1, acc.2 + block.2)

def tightSliceBoundaries (c : TightSpace K V) (inputs : List (TableView K V)) (budget : ℕ) :
    List K :=
  let entries := (inputs.flatMap fun t =>
    (c.layout.blocks t.table).map fun b => (b.endKey, b.size)).insertionSort fun a b => a.1 ≤ b.1
  (entries.foldl (boundaryStep budget (entries.getLast?.map (·.1))) ([], 0)).1

theorem boundaryStep_ascending {budget : ℕ} {globalMax : Option K} {entries : List (K × ℕ)}
    {acc : List K × ℕ} (hs : entries.Pairwise fun a b => a.1 ≤ b.1)
    (hle : ∀ k ∈ acc.1, ∀ x ∈ entries, k ≤ x.1) (hacc : acc.1.Pairwise (· < ·)) :
    (entries.foldl (boundaryStep budget globalMax) acc).1.Pairwise (· < ·) := by
  induction entries generalizing acc with
  | nil => exact hacc
  | cons x entries ih =>
    obtain ⟨hx, hs⟩ := pairwise_cons.1 hs
    rw [foldl_cons]
    by_cases hpush : budget ≤ acc.2 + x.2 ∧ globalMax ≠ some x.1 ∧ acc.1.getLast? ≠ some x.1
    · rw [boundaryStep, if_pos hpush]
      refine ih hs ?_ ?_
      · intro k hk y hy
        rcases mem_append.1 hk with hk | hk
        · exact hle k hk y (mem_cons_of_mem x hy)
        · rw [mem_singleton.1 hk]
          exact hx y hy
      · refine pairwise_append.2 ⟨hacc, pairwise_singleton _ _, ?_⟩
        intro k hk y hy
        rw [mem_singleton.1 hy]
        refine lt_of_le_of_ne (hle k hk x mem_cons_self) ?_
        rintro rfl
        -- the last boundary is the greatest, and it is not `x`
        obtain ⟨last, hlast⟩ : ∃ last, acc.1.getLast? = some last :=
          Option.isSome_iff_exists.1 (by simpa using ne_nil_of_mem hk)
        have hmem := mem_of_getLast? hlast
        have hlt : x.1 ≤ last := by
          rw [← dropLast_append_getLast? last hlast] at hacc hk
          rcases mem_append.1 hk with hk | hk
          · exact ((pairwise_append.1 hacc).2.2 _ hk last (mem_singleton_self _)).le
          · exact (mem_singleton.1 hk).le
        have heq := le_antisymm hlt (hle last hmem x mem_cons_self)
        exact hpush.2.2 (by rw [hlast, heq])
    · rw [boundaryStep, if_neg hpush]
      exact ih hs (fun k hk y hy => hle k hk y (mem_cons_of_mem x hy)) hacc

theorem tightSliceBoundaries_ascending (c : TightSpace K V) (inputs : List (TableView K V))
    (budget : ℕ) : (c.tightSliceBoundaries inputs budget).Pairwise (· < ·) := by
  refine boundaryStep_ascending ?_ (by simp) List.Pairwise.nil
  exact pairwise_insertionSort _ _

end Boundaries

variable (c : TightSpace K V)

/-- Slices apply no removal semantics, whatever the target level is. -/
def streamConfig : StreamConfig K V where
  gcSeqnoThreshold := c.mvccGcWatermark
  evictTombstones := false
  mergeOperator := c.mergeOperator
  rtApply := []

def start [RawKey K] (v : Version (TableView K V)) (punched : List (ℕ × ℕ)) : Option (State K V) :=
  (c.tableIds.mapM v.getTable).map fun inputs =>
    ⟨v, CompactionPayload.inputRangeTombstones (inputs.map (·.table)), inputs, none, 0, false, [],
      [], punched⟩

namespace State

variable [RawKey K] [Inhabited V] (s : State K V)

def merged (r : Version.SubRange K) : Option (List (InternalValue K V)) :=
  ((s.version.map (·.read)).boundedReaders (s.currentViews.map (·.table.id)) r).map
    (KWayMerge.mergeAll InternalValue.le)

/-- `run_subcompaction` -/
def job (r : Version.SubRange K) : Option (MergeJob K V) :=
  (s.merged r).map fun merged => {
    items := c.streamConfig.compactionStream merged
    rangeTombstones := s.rangeTombstones
    outputFull := c.outputFull s.slices
    registered := length
    newTableIds := c.newTableIds s.slices }

/-- The inputs that reach the boundary; the slice consumes the others. -/
def surviving (boundary : K) : List (TableView K V) :=
  s.currentViews.filter fun t => !decide (t.table.keyRange.max < boundary)

def consumedIds (boundary : K) : List ℕ :=
  (s.currentViews.filter fun t => decide (t.table.keyRange.max < boundary)).map (·.table.id)

/-- The version edit of a slice, and the punches it arms on the views it replaces. -/
def install (boundary : K) (outputs : List (Table K V)) : State K V :=
  let restricted := (s.surviving boundary).map (·.restrict boundary)
  { s with
    version := s.version.withTightSlice restricted (s.consumedIds boundary)
      (outputs.map TableView.whole) c.destLevel
    currentViews := restricted
    lower := some boundary
    slices := s.slices + 1
    created := s.created ++ outputs
    armed := s.armed ++ (s.surviving boundary).map fun t =>
      (t.table, punchOffsetFor (c.layout.blocks t.table) (t.raised boundary)) }

/-- The last slice is installed as an ordinary merge of what is left. -/
def installTail (outputs : List (Table K V)) : State K V :=
  { s with
    version := s.version.withMerge (s.currentViews.map (·.table.id))
      (outputs.map TableView.whole) c.destLevel
    currentViews := []
    slices := s.slices + 1
    finished := true
    created := s.created ++ outputs }

def punch (t : Table K V) (offset : ℕ) : State K V :=
  { s with punched := s.punched ++ (reclaimable (c.layout.blocks t) offset).map (t.id, ·) }

/-- The punches that an open derives from the bounds of the recovered version. -/
def reopened : List (ℕ × ℕ) :=
  s.version.tables.flatMap fun t =>
    match t.restriction with
    | some bound =>
      (reclaimable (c.layout.blocks t.table)
        (punchOffsetFor (c.layout.blocks t.table) bound)).map (t.table.id, ·)
    | none => []

def step : Event K → Option (State K V)
  | .slice boundary =>
    -- boundaries ascend, and the loop ends with the last surviving input
    if s.lower.all (decide <| · < boundary) ∧ s.currentViews ≠ [] then
      (s.job c ⟨s.lower, some boundary⟩).map fun job => s.install c boundary job.outputs
    else none
  | .tail =>
    if s.currentViews ≠ [] then
      (s.job c ⟨s.lower, none⟩).map fun job => s.installTail c job.outputs
    else none
  | .reclaim i => (s.armed[i]?).map fun x => s.punch c x.1 x.2
  | .reopen => some { s with punched := s.punched ++ s.reopened c }

end State

section Accounts

def ofKey (k : K) (entries : List (InternalValue K V)) : List (InternalValue K V) :=
  entries.filter fun e => e.userKey = k

theorem ofKey_append (k : K) (l l' : List (InternalValue K V)) :
    ofKey k (l ++ l') = ofKey k l ++ ofKey k l' := filter_append _ _

theorem ofKey_filter (k : K) (p : K → Bool) (l : List (InternalValue K V)) :
    ofKey k (l.filter fun e => p e.userKey) = if p k = true then ofKey k l else [] :=
  SortedSearch.filter_filter_key p l

def State.Consumed (s : State K V) (k : K) : Prop := s.finished = true ∨ ∃ b ∈ s.lower, k < b

/-- Of a key that the slices have passed, the outputs hold what the stream makes of the inputs'
entries; of every other key the inputs show what they did. -/
structure Accounts (v : Version (TableView K V)) (inputs : List (TableView K V))
    (s : State K V) : Prop where
  held : s.version.tables.Perm ((v.tables.filter fun t => t.table.id ∉ c.tableIds) ++
    (s.created.map TableView.whole ++ s.currentViews))
  consumed : ∀ k, s.Consumed k → ofKey k (s.currentViews.flatMap (·.visible)) = [] ∧
    ∃ merged, merged.Perm (ofKey k (inputs.flatMap (·.visible))) ∧
      merged.Pairwise (fun a b => InternalValue.le a b = true) ∧
      ofKey k (s.created.flatMap (·.entries)) = c.streamConfig.compactionStream merged
  pending : ∀ k, ¬ s.Consumed k →
    ofKey k (s.currentViews.flatMap (·.visible)) = ofKey k (inputs.flatMap (·.visible)) ∧
    ofKey k (s.created.flatMap (·.entries)) = []

def State.punchedOf (s : State K V) (id : ℕ) : List ℕ :=
  (s.punched.filter fun x => x.1 = id).map (·.2)

/-- A version as the slices find it: earlier compactions may have restricted and punched its tables.
-/
structure Ready (v : Version (TableView K V)) (punched : List (ℕ × ℕ)) : Prop where
  distinct : v.DistinctIds
  inputs : c.tableIds.Nodup
  sorted : ∀ t ∈ v.tables, t.table.entries.Pairwise fun a b => InternalValue.le a b = true
  target : c.destLevel < v.levels.length
  fresh : ∀ i j, ∀ t ∈ v.tables, c.newTableIds i j ≠ t.table.id
  known : ∀ x ∈ punched, ∃ t ∈ v.tables, t.table.id = x.1
  safe : ∀ t ∈ v.tables,
    t.SafelyPunched c.layout ((punched.filter fun x => x.1 = t.table.id).map (·.2))

/-- The step adds no entry of its own, and the inputs it drops have nothing left to serve. -/
def State.Benign (s : State K V) : Event K → Prop
  | .slice boundary => (∀ j ∈ s.job c ⟨s.lower, some boundary⟩, j.NoMarker) ∧
      ∀ t ∈ s.currentViews, t.table.keyRange.max < boundary →
        ∀ e ∈ t.visible, e.userKey < boundary
  | .tail => ∀ j ∈ s.job c ⟨s.lower, none⟩, j.NoMarker
  | _ => True

instance [DecidableEq V] (s : State K V) (e : Event K) : Decidable (s.Benign c e) :=
  match e with
  | .slice _ => inferInstanceAs (Decidable (_ ∧ _))
  | .tail => inferInstanceAs (Decidable (∀ j ∈ _, MergeJob.NoMarker j))
  | .reclaim _ => isTrue trivial
  | .reopen => isTrue trivial

end Accounts

structure Invariant (v : Version (TableView K V)) (inputs : List (TableView K V))
    (s : State K V) : Prop extends c.Accounts v inputs s where
  target : c.destLevel < s.version.levels.length
  /-- the views are what is left of the inputs -/
  views : ∀ t ∈ s.currentViews, ∃ t₀ ∈ inputs, t.Within t₀
  ids : (s.currentViews.map (·.table.id)).Nodup
  fresh : ∀ t ∈ s.created, ∀ u ∈ v.tables, t.id ≠ u.table.id
  finished : s.finished = true → s.currentViews = []
  known : ∀ x ∈ s.punched, ∃ t ∈ v.tables, t.table.id = x.1
  armed : ∀ x ∈ s.armed, (∃ t ∈ inputs, t.table = x.1) ∧
    ∀ t ∈ s.currentViews, t.table.id = x.1.id →
      t.SafelyPunched c.layout (reclaimable (c.layout.blocks x.1) x.2)
  safe : ∀ t ∈ s.version.tables, t.SafelyPunched c.layout (s.punchedOf t.table.id)

structure Inputs (v : Version (TableView K V)) (inputs : List (TableView K V)) : Prop where
  perm : (v.tables.filter fun t => t.table.id ∈ c.tableIds).Perm inputs
  ids : (inputs.map (·.table.id)).Nodup

section Start

variable {c} {v : Version (TableView K V)} {inputs : List (TableView K V)}

omit [LinearOrder K] in
theorem Inputs.mem (hin : c.Inputs v inputs) {t : TableView K V} (ht : t ∈ inputs) :
    t ∈ v.tables ∧ t.table.id ∈ c.tableIds := by
  have := mem_filter.1 (hin.perm.mem_iff.2 ht)
  exact ⟨this.1, by simpa using this.2⟩

omit [LinearOrder K] in
theorem inputs_of_mapM (hd : v.DistinctIds) (hnd : c.tableIds.Nodup)
    (h : c.tableIds.mapM v.getTable = some inputs) : c.Inputs v inputs := by
  have hall := Pointwise.forall₂_of_mapM h
  have hget : ∀ {id t}, v.getTable id = some t → t ∈ v.tables ∧ t.table.id = id := fun h =>
    ⟨mem_of_find?_eq_some h,
      eq_of_beq (find?_some (p := fun t : TableView K V => t.table.id == _) h)⟩
  have hids : inputs.map (·.table.id) = c.tableIds := by
    clear h hnd
    generalize c.tableIds = ids at hall
    induction hall with
    | nil => rfl
    | cons h _ ih => rw [map_cons, ih, (hget h).2]
  have hmem : ∀ t, t ∈ inputs → t ∈ v.tables := fun t ht => by
    obtain ⟨id, -, hid⟩ := Pointwise.exists_of_forall₂_mem hall ht
    exact (hget hid).1
  have hnodup : v.tables.Nodup := List.Nodup.of_map _ hd
  refine ⟨(perm_ext_iff_of_nodup (hnodup.filter _) (List.Nodup.of_map (·.table.id)
    (hids ▸ hnd))).2 fun t => ?_, hids ▸ hnd⟩
  rw [mem_filter, decide_eq_true_eq, ← hids]
  constructor
  · rintro ⟨ht, hid⟩
    obtain ⟨t', ht', heq⟩ := mem_map.1 hid
    rw [← inj_on_of_nodup_map hd (hmem t' ht') ht heq]
    exact ht'
  · exact fun ht => ⟨hmem t ht, mem_map_of_mem ht⟩

variable {punched : List (ℕ × ℕ)} {s : State K V}

theorem start_invariant [RawKey K] (hr : c.Ready v punched) (h : c.start v punched = some s) :
    c.Inputs v s.currentViews ∧ c.Invariant v s.currentViews s := by
  obtain ⟨inputs, hmap, rfl⟩ := Option.map_eq_some_iff.1 h
  have hin := inputs_of_mapM hr.distinct hr.inputs hmap
  refine ⟨hin, {
    held := ?_
    consumed := fun k hk => ?_
    pending := fun k _ => ⟨rfl, rfl⟩
    target := hr.target
    views := fun t ht => ⟨t, ht, TableView.Within.refl t⟩
    ids := hin.ids
    fresh := nofun
    finished := nofun
    known := hr.known
    armed := nofun
    safe := hr.safe }⟩
  · have hsplit := (filter_append_perm (fun t : TableView K V => t.table.id ∈ c.tableIds)
      v.tables).symm
    refine hsplit.trans (perm_append_comm.trans ?_)
    simpa using hin.perm.append_left _
  · rcases hk with hk | ⟨b, hb, -⟩
    · cases hk
    · cases hb

end Start

namespace Invariant

variable {c} {v : Version (TableView K V)} {inputs : List (TableView K V)} {s : State K V}
  {punched : List (ℕ × ℕ)} {t : TableView K V} {r : Version.SubRange K} {boundary k : K}
  {outputs : List (Table K V)}

theorem outputs_fresh [RawKey K] [Inhabited V] (hr : c.Ready v punched) {j : MergeJob K V}
    (hj : s.job c r = some j) :
    ∀ t ∈ j.outputs, ∀ u ∈ v.tables, t.id ≠ u.table.id := by
  obtain ⟨m, -, rfl⟩ := Option.map_eq_some_iff.1 hj
  intro t ht u hu
  obtain ⟨i, hid⟩ := writeAll_id ht
  rw [hid]
  exact hr.fresh _ _ u hu

theorem restricted_ofKey (views : List (TableView K V))
    (hdrop : ∀ t ∈ views, t.table.keyRange.max < boundary → ∀ e ∈ t.visible, e.userKey < boundary)
    (k : K) :
    ofKey k (((views.filter fun t => !decide (t.table.keyRange.max < boundary)).map
      (·.restrict boundary)).flatMap (·.visible)) =
      if boundary ≤ k then ofKey k (views.flatMap (·.visible)) else [] := by
  induction views with
  | nil => simp [ofKey]
  | cons t views ih =>
    obtain ⟨ht, hrest⟩ := forall_mem_cons.1 hdrop
    by_cases hmax : t.table.keyRange.max < boundary
    · -- a consumed view: what it shows is below the boundary
      have hnone : boundary ≤ k → ofKey k t.visible = [] := fun hk =>
        filter_eq_nil_iff.2 fun e he hek =>
          not_lt.2 hk ((of_decide_eq_true hek) ▸ ht hmax e he)
      rw [filter_cons_of_neg (by simpa using hmax), ih hrest, flatMap_cons]
      split
      case isTrue hk => rw [ofKey_append, hnone hk, nil_append]
      case isFalse => rfl
    · have hview : ofKey k (t.restrict boundary).visible =
          if boundary ≤ k then ofKey k t.visible else [] := by
        rw [TableView.restrict_visible, ofKey_filter k fun k => decide (boundary ≤ k),
          if_congr decide_eq_true_iff rfl rfl]
      rw [filter_cons_of_pos (by simpa using hmax), map_cons, flatMap_cons,
        flatMap_cons, ofKey_append, ofKey_append, hview, ih hrest]
      split
      · rfl
      · rfl

theorem find_restricted {views : List (TableView K V)} (hnd : (views.map (·.table.id)).Nodup)
    (ht : t ∈ views) : (views.map (·.restrict boundary)).find? (·.table.id == t.table.id) =
      some (t.restrict boundary) := by
  induction views with
  | nil => cases ht
  | cons u views ih =>
    rw [map_cons, nodup_cons] at hnd
    rw [map_cons]
    rcases mem_cons.1 ht with rfl | ht
    · exact find?_cons_of_pos (by simp [TableView.restrict])
    · have hne : u.table.id ≠ t.table.id := fun h =>
        hnd.1 (h ▸ mem_map_of_mem ht)
      rw [find?_cons_of_neg (by simpa [TableView.restrict] using hne)]
      exact ih hnd.2 ht

theorem surviving_subset : ∀ t ∈ s.surviving boundary, t ∈ s.currentViews :=
  fun _ ht => (mem_filter.1 ht).1

theorem contains_iff (hf : s.finished = false) (hi : Option K) :
    (⟨s.lower, hi⟩ : Version.SubRange K).contains k = true ↔
      ¬ s.Consumed k ∧ ∀ b ∈ hi, k < b := by
  rw [Version.SubRange.contains, Bool.and_eq_true, State.Consumed, hf]
  cases s.lower <;> cases hi <;> simp

theorem consumed_install (hf : s.finished = false) :
    (s.install c boundary outputs).Consumed k ↔ k < boundary := by
  simp [State.Consumed, State.install, hf]

theorem lt_of_consumed (hf : s.finished = false)
    (hlow : s.lower.all (decide <| · < boundary) = true) (hk : s.Consumed k) : k < boundary := by
  rcases hk with hk | ⟨b, hb, hk⟩
  · rw [hf] at hk
    cases hk
  · rw [hb, Option.all_some, decide_eq_true_eq] at hlow
    exact hk.trans hlow

omit [LinearOrder K] in
theorem punchedOf_append (s : State K V) (l : List (ℕ × ℕ)) (id : ℕ) :
    ({ s with punched := s.punched ++ l } : State K V).punchedOf id =
      s.punchedOf id ++ (l.filter fun x => x.1 = id).map (·.2) := by
  simp [State.punchedOf]

theorem safelyPunched_of_bound {t : TableView K V} (hs : KeySorted t.table.entries) {bound : K}
    (hb : ∀ k, k < bound → t.isBelowRestriction k = true) :
    t.SafelyPunched c.layout (reclaimable (c.layout.blocks t.table)
      (punchOffsetFor (c.layout.blocks t.table) bound)) :=
  fun _ hh ho e he => hb _ (c.layout.reclaimable_below hs hh ho e he)

variable (hi : c.Invariant v inputs s)
include hi

theorem mem_tables : t ∈ s.version.tables ↔
    (t ∈ v.tables ∧ t.table.id ∉ c.tableIds) ∨ t ∈ s.created.map TableView.whole ∨
      t ∈ s.currentViews := by
  rw [hi.held.mem_iff, mem_append, mem_append, mem_filter, decide_eq_true_eq]

theorem view_mem (ht : t ∈ s.currentViews) : t ∈ s.version.tables :=
  hi.mem_tables.2 (Or.inr (Or.inr ht))

theorem created_fresh (ht : t ∈ s.created.map TableView.whole) :
    ∀ u ∈ v.tables, t.table.id ≠ u.table.id := by
  obtain ⟨o, ho, rfl⟩ := mem_map.1 ht
  exact hi.fresh o ho

variable (boundary) in
theorem surviving_ids : ((s.surviving boundary).map (·.table.id)).Nodup :=
  (filter_sublist.map _).nodup hi.ids

theorem swap_views :
    ((s.currentViews.map (Version.swapRestricted ((s.surviving boundary).map
      (·.restrict boundary)))).filter fun t => t.table.id ∉ s.consumedIds boundary) =
      (s.surviving boundary).map (·.restrict boundary) := by
  have hkeep : ∀ t ∈ s.currentViews, decide (t.table.id ∉ s.consumedIds boundary) =
      !decide (t.table.keyRange.max < boundary) := by
    intro t ht
    rw [Bool.eq_iff_iff, decide_eq_true_eq, Bool.not_eq_true', decide_eq_false_iff_not, not_iff_not]
    constructor
    · intro hid
      obtain ⟨u, hu, heq⟩ := mem_map.1 hid
      obtain ⟨hu, hmax⟩ := mem_filter.1 hu
      rw [← inj_on_of_nodup_map hi.ids hu ht heq]
      exact of_decide_eq_true hmax
    · intro hmax
      exact mem_map_of_mem (mem_filter.2 ⟨ht, decide_eq_true hmax⟩)
  have hfilter : s.currentViews.filter ((fun t => decide (t.table.id ∉ s.consumedIds boundary)) ∘
      Version.swapRestricted ((s.surviving boundary).map (·.restrict boundary))) =
      s.surviving boundary := by
    refine filter_congr fun t ht => ?_
    rw [Function.comp_apply, Version.swapRestricted_id]
    exact hkeep t ht
  rw [filter_map, hfilter]
  refine map_congr_left fun t ht => ?_
  rw [Version.swapRestricted, find_restricted (hi.surviving_ids boundary) ht]
  rfl

theorem not_finished (hviews : s.currentViews ≠ []) : s.finished = false := by
  by_contra h
  exact hviews (hi.finished (by simpa using h))

theorem punchedOf_fresh {id : ℕ} (h : ∀ u ∈ v.tables, id ≠ u.table.id) : s.punchedOf id = [] := by
  rw [State.punchedOf, map_eq_nil_iff, filter_eq_nil_iff]
  intro x hx hid
  obtain ⟨u, hu, heq⟩ := hi.known x hx
  exact h u hu ((of_decide_eq_true hid).symm.trans heq.symm)

theorem fresh_safe {o : Table K V} (h : ∀ u ∈ v.tables, o.id ≠ u.table.id) :
    (TableView.whole o).SafelyPunched c.layout (s.punchedOf o.id) := by
  rw [hi.punchedOf_fresh h]
  exact fun _ _ h => absurd h not_mem_nil

theorem punches {l : List (ℕ × ℕ)} (hknown : ∀ x ∈ l, ∃ t ∈ v.tables, t.table.id = x.1)
    (hsafe : ∀ t ∈ s.version.tables,
      t.SafelyPunched c.layout ((l.filter fun x => x.1 = t.table.id).map (·.2))) :
    c.Invariant v inputs { s with punched := s.punched ++ l } := by
  refine { hi with
    known := fun x hx => (mem_append.1 hx).elim (hi.known x) (hknown x)
    safe := fun t ht handle hh ho => ?_ }
  rw [punchedOf_append] at ho
  rcases mem_append.1 ho with ho | ho
  · exact hi.safe t ht handle hh ho
  · exact hsafe t ht handle hh ho

variable (hin : c.Inputs v inputs)
include hin

theorem view_input
    (ht : t ∈ s.currentViews) : ∃ t₀ ∈ v.tables, t.Within t₀ ∧ t.table.id ∈ c.tableIds := by
  obtain ⟨t₀, ht₀, hw⟩ := hi.views t ht
  refine ⟨t₀, (hin.mem ht₀).1, hw, ?_⟩
  rw [hw.table]
  exact (hin.mem ht₀).2

theorem ne_view {u : TableView K V}
    (ht : t ∈ (v.tables.filter fun t => t.table.id ∉ c.tableIds) ++ s.created.map TableView.whole)
    (hu : u ∈ s.currentViews) : u.table.id ≠ t.table.id := by
  intro heq
  obtain ⟨u₀, hu₀, hw, hmem⟩ := hi.view_input hin hu
  rcases mem_append.1 ht with ht | ht
  · exact of_decide_eq_true (mem_filter.1 ht).2 (heq ▸ hmem)
  · exact hi.created_fresh ht u₀ hu₀ (heq.symm.trans (congrArg (·.id) hw.table))

variable (boundary outputs) in
theorem install_held :
    (s.install c boundary outputs).version.tables.Perm
      ((v.tables.filter fun t => t.table.id ∉ c.tableIds) ++
        ((s.created ++ outputs).map TableView.whole ++
          (s.surviving boundary).map (·.restrict boundary))) := by
  have hconsumed : ∀ id ∈ s.consumedIds boundary, ∃ t ∈ s.currentViews, t.table.id = id := by
    intro id hid
    obtain ⟨t, ht, rfl⟩ := mem_map.1 hid
    exact ⟨t, (mem_filter.1 ht).1, rfl⟩
  -- tables that are not current views are neither swapped nor dropped
  have hstay : ∀ l : List (TableView K V),
      (∀ t ∈ l, ∀ u ∈ s.currentViews, u.table.id ≠ t.table.id) →
      ((l.map (Version.swapRestricted ((s.surviving boundary).map (·.restrict boundary)))).filter
        fun t => t.table.id ∉ s.consumedIds boundary) = l := by
    intro l hl
    have hsame : l.map (Version.swapRestricted ((s.surviving boundary).map
        (·.restrict boundary))) = l := by
      refine (map_congr_left fun t ht => Version.swapRestricted_of_ne ?_).trans
        (map_id' l)
      intro w hw
      obtain ⟨u, hu, rfl⟩ := mem_map.1 hw
      exact hl t ht u (surviving_subset u hu)
    rw [hsame]
    refine filter_eq_self.2 fun t ht => decide_eq_true fun hid => ?_
    obtain ⟨u, hu, heq⟩ := hconsumed _ hid
    exact hl t ht u hu heq
  have hlen : c.destLevel < (s.version.map (Version.swapRestricted ((s.surviving boundary).map
      (·.restrict boundary)))).levels.length := by
    simpa [Version.map] using hi.target
  refine Version.replaceTables_perm.trans ?_
  rw [if_pos hlen, Version.tables_map]
  have hrest : ((s.version.tables.map (Version.swapRestricted ((s.surviving boundary).map
      (·.restrict boundary)))).filter fun t => t.table.id ∉ s.consumedIds boundary).Perm
      ((v.tables.filter fun t => t.table.id ∉ c.tableIds) ++ (s.created.map TableView.whole ++
        (s.surviving boundary).map (·.restrict boundary))) := by
    refine ((hi.held.map _).filter _).trans (List.Perm.of_eq ?_)
    rw [← append_assoc, map_append, filter_append, hstay _ fun t ht u hu => hi.ne_view hin ht hu,
      hi.swap_views, append_assoc]
  refine (hrest.append_left _).trans ?_
  -- the outputs move behind the tables created before
  rw [map_append, ← append_assoc]
  refine (perm_append_comm.append_right _).trans ?_
  rw [append_assoc]
  refine List.Perm.append_left _ ?_
  rw [← append_assoc]
  exact perm_append_comm.append_right _

theorem slice_safe (hout : ∀ o ∈ outputs, ∀ u ∈ v.tables, o.id ≠ u.table.id)
    (ht : t ∈ (s.install c boundary outputs).version.tables) :
    t.SafelyPunched c.layout ((s.install c boundary outputs).punchedOf t.table.id) := by
  rcases mem_append.1 ((hi.install_held boundary outputs hin).mem_iff.1 ht) with ht | ht
  · exact hi.safe t (hi.held.mem_iff.2 (mem_append_left _ ht))
  rcases mem_append.1 ht with ht | ht
  · obtain ⟨o, ho, rfl⟩ := mem_map.1 ht
    rcases mem_append.1 ho with ho | ho
    · exact hi.safe _ (hi.mem_tables.2 (Or.inr (Or.inl (mem_map_of_mem ho))))
    · exact hi.fresh_safe (hout o ho)
  · obtain ⟨u, hu, rfl⟩ := mem_map.1 ht
    exact (hi.safe u (hi.view_mem (surviving_subset u hu))).within (u.restrict_within boundary)

theorem tail_held (outputs : List (Table K V)) : (s.installTail c outputs).version.tables.Perm
      ((v.tables.filter fun t => t.table.id ∉ c.tableIds) ++
        ((s.created ++ outputs).map TableView.whole ++ [])) := by
  refine Version.replaceTables_perm.trans ?_
  rw [if_pos hi.target]
  have hrest : (s.version.tables.filter fun t => t.table.id ∉ s.currentViews.map (·.table.id)).Perm
      ((v.tables.filter fun t => t.table.id ∉ c.tableIds) ++ s.created.map TableView.whole) := by
    refine (hi.held.filter _).trans (List.Perm.of_eq ?_)
    rw [← append_assoc, filter_append]
    have hviews : (s.currentViews.filter fun t =>
        decide (t.table.id ∉ s.currentViews.map (·.table.id))) = [] :=
      filter_eq_nil_iff.2 fun t ht h => of_decide_eq_true h (mem_map_of_mem ht)
    rw [hviews, append_nil]
    refine filter_eq_self.2 fun t ht => decide_eq_true fun hid => ?_
    obtain ⟨u, hu, heq⟩ := mem_map.1 hid
    exact hi.ne_view hin ht hu heq
  refine (hrest.append_left _).trans ?_
  rw [append_nil, map_append]
  exact perm_append_comm.trans (List.Perm.of_eq (append_assoc _ _ _))

theorem reclaim {x : Table K V × ℕ}
    (hx : x ∈ s.armed) : c.Invariant v inputs (s.punch c x.1 x.2) := by
  obtain ⟨⟨t₀, ht₀, heq⟩, hsafe⟩ := hi.armed x hx
  obtain ⟨hv, hid⟩ := hin.mem ht₀
  rw [heq] at hid
  refine hi.punches ?_ ?_
  · intro y hy
    obtain ⟨o, -, rfl⟩ := mem_map.1 hy
    exact ⟨t₀, hv, by rw [heq]⟩
  · intro t ht handle hh ho
    obtain ⟨y, hy, hoff⟩ := mem_map.1 ho
    obtain ⟨hy, hyid⟩ := mem_filter.1 hy
    obtain ⟨o, hmem, rfl⟩ := mem_map.1 hy
    have htid : x.1.id = t.table.id := of_decide_eq_true hyid
    -- the table with that id is a view of the input
    rcases hi.mem_tables.1 ht with ⟨-, hout⟩ | hc | hview
    · exact absurd (htid ▸ hid) hout
    · exact absurd (htid.symm.trans (by rw [heq])) (hi.created_fresh hc t₀ hv)
    · exact hsafe t hview htid.symm handle hh (hoff ▸ hmem)

variable (hr : c.Ready v punched)
include hr

theorem view_sorted (ht : t ∈ s.currentViews) :
    t.table.entries.Pairwise fun a b => a.le b = true := by
  obtain ⟨t₀, ht₀, hw, -⟩ := hi.view_input hin ht
  rw [hw.table]
  exact hr.sorted t₀ ht₀

theorem view_keySorted (ht : t ∈ s.currentViews) : KeySorted t.table.entries :=
  (hi.view_sorted hin hr ht).imp fun h => InternalValue.le_key.1 h

theorem eq_of_known {t' : TableView K V} (ht : t ∈ s.version.tables) (ht' : t' ∈ s.version.tables)
    (hid : t.table.id = t'.table.id)
    (hknown : ∃ u ∈ v.tables, u.table.id = t.table.id) : t = t' := by
  obtain ⟨u, hu, huid⟩ := hknown
  rcases hi.mem_tables.1 ht with ⟨hv, hout⟩ | hc | hview
  · rcases hi.mem_tables.1 ht' with ⟨hv', -⟩ | hc' | hview'
    · exact inj_on_of_nodup_map hr.distinct hv hv' hid
    · exact absurd (hid.symm.trans huid.symm) (hi.created_fresh hc' u hu)
    · obtain ⟨_, -, -, hmem⟩ := hi.view_input hin hview'
      exact absurd (hid ▸ hmem) hout
  · exact absurd huid.symm (hi.created_fresh hc u hu)
  · obtain ⟨_, -, -, hmem⟩ := hi.view_input hin hview
    rcases hi.mem_tables.1 ht' with ⟨-, hout'⟩ | hc' | hview'
    · exact absurd (hid ▸ hmem) hout'
    · exact absurd (hid.symm.trans huid.symm) (hi.created_fresh hc' u hu)
    · exact inj_on_of_nodup_map hi.ids hview hview' hid

theorem merged_spec {m : List (InternalValue K V)} (h : s.merged r = some m) :
    m.Perm ((s.currentViews.flatMap (·.visible)).filter fun e => r.contains e.userKey) ∧
      m.Pairwise fun a b => a.le b = true := by
  obtain ⟨readers, hreaders, rfl⟩ := Option.map_eq_some_iff.1 h
  rw [Version.boundedReaders, Version.tables_map, filter_map] at hreaders
  split at hreaders
  case isFalse => cases hreaders
  cases hreaders
  -- only the current views have the ids of current views
  have hfound : (s.version.tables.filter ((fun t : Table K V =>
      decide (t.id ∈ s.currentViews.map (·.table.id))) ∘ TableView.read)).Perm s.currentViews := by
    refine (hi.held.filter _).trans (List.Perm.of_eq ?_)
    rw [← append_assoc, filter_append, filter_eq_nil_iff.2, nil_append]
    · exact filter_eq_self.2 fun t ht => decide_eq_true (mem_map_of_mem ht)
    · intro t ht hmem
      obtain ⟨u, hu, heq⟩ := mem_map.1 (of_decide_eq_true hmem)
      exact hi.ne_view hin ht hu heq
  refine ⟨(KWayMerge.mergeAll_perm _).trans ?_, ?_⟩
  · rw [filter_flatMap, map_map, ← flatMap_def]
    exact hfound.flatMap_right _
  · refine KWayMerge.mergeAll_pairwise (r := fun a b : InternalValue K V => a.le b = true)
      (fun _ _ _ => InternalValue.le_trans) (fun _ _ => id)
      (fun _ _ => InternalValue.le_of_not_le) ?_
    intro reader hreader
    rw [map_map] at hreader
    obtain ⟨t, ht, rfl⟩ := mem_map.1 hreader
    exact List.Pairwise.sublist filter_sublist
      (TableView.visible_pairwise (hi.view_sorted hin hr (hfound.mem_iff.1 ht)))

theorem reopen : c.Invariant v inputs { s with punched := s.punched ++ s.reopened c } := by
  -- a punch comes from a restricted table, which was there at the start
  have hfrom : ∀ x ∈ s.reopened c, ∃ t ∈ s.version.tables, ∃ bound ∈ t.restriction,
      x.1 = t.table.id ∧ x.2 ∈ reclaimable (c.layout.blocks t.table)
        (punchOffsetFor (c.layout.blocks t.table) bound) := by
    intro x hx
    obtain ⟨t, ht, hx⟩ := mem_flatMap.1 hx
    cases hres : t.restriction with
    | none =>
      rw [hres] at hx
      cases hx
    | some bound =>
      rw [hres] at hx
      obtain ⟨o, ho, rfl⟩ := mem_map.1 hx
      exact ⟨t, ht, bound, hres, rfl, ho⟩
  have hstart : ∀ t ∈ s.version.tables, t.restriction ≠ none →
      ∃ u ∈ v.tables, u.table = t.table := by
    intro t ht hne
    rcases hi.mem_tables.1 ht with ⟨hv, -⟩ | hc | hview
    · exact ⟨t, hv, rfl⟩
    · obtain ⟨o, -, rfl⟩ := mem_map.1 hc
      exact absurd rfl hne
    · obtain ⟨t₀, ht₀, hw, -⟩ := hi.view_input hin hview
      exact ⟨t₀, ht₀, hw.table.symm⟩
  refine hi.punches ?_ ?_
  · intro x hx
    obtain ⟨t, ht, bound, hres, hid, -⟩ := hfrom x hx
    obtain ⟨u, hu, heq⟩ := hstart t ht (by rw [hres]; simp)
    exact ⟨u, hu, by rw [heq, hid]⟩
  · intro t ht handle hh ho
    obtain ⟨x, hx, hoff⟩ := mem_map.1 ho
    obtain ⟨hx, hxid⟩ := mem_filter.1 hx
    obtain ⟨t', ht', bound, hres, hid, hmem⟩ := hfrom x hx
    obtain ⟨u, hu, heq⟩ := hstart t' ht' (by rw [hres]; simp)
    have hsame : t' = t := hi.eq_of_known hin hr ht' ht (hid.symm.trans (of_decide_eq_true hxid))
      ⟨u, hu, by rw [heq]⟩
    subst hsame
    have hsorted : KeySorted t'.table.entries := by
      rw [← heq]
      exact (hr.sorted u hu).imp fun h => InternalValue.le_key.1 h
    refine safelyPunched_of_bound hsorted (fun k hk => ?_) handle hh (hoff ▸ hmem)
    rw [TableView.isBelowRestriction, hres, Option.any_some]
    exact decide_eq_true hk

variable [RawKey K] [Inhabited V] {j : MergeJob K V}

theorem job_ofKey {j : MergeJob K V} (hj : s.job c r = some j) (hno : j.NoMarker)
    (k : K) : ∃ merged,
      merged.Perm (if r.contains k then ofKey k (s.currentViews.flatMap (·.visible)) else []) ∧
      merged.Pairwise (fun a b => a.le b = true) ∧
      ofKey k (j.outputs.flatMap (·.entries)) = c.streamConfig.compactionStream merged := by
  obtain ⟨m, hm, rfl⟩ := Option.map_eq_some_iff.1 hj
  obtain ⟨hperm, hsorted⟩ := hi.merged_spec hin hr hm
  refine ⟨ofKey k m, (hperm.filter _).trans (List.Perm.of_eq ?_), hsorted.filter _, ?_⟩
  · exact ofKey_filter k r.contains _
  · rw [MergeJob.outputs_entries hno]
    exact StreamConfig.compactionStream_filter k (hsorted.imp fun h => InternalValue.le_key.1 h)

theorem slice_accounts (hlow : s.lower.all (decide <| · < boundary) = true)
    (hviews : s.currentViews ≠ []) (hj : s.job c ⟨s.lower, some boundary⟩ = some j)
    (hno : j.NoMarker) (hdrop : ∀ t ∈ s.currentViews, t.table.keyRange.max < boundary →
      ∀ e ∈ t.visible, e.userKey < boundary) :
    c.Accounts v inputs (s.install c boundary j.outputs) := by
  have hf := hi.not_finished hviews
  have hmoved := fun k => restricted_ofKey s.currentViews hdrop k
  have hcreated : ∀ k, ofKey k ((s.install c boundary j.outputs).created.flatMap (·.entries)) =
      ofKey k (s.created.flatMap (·.entries)) ++ ofKey k (j.outputs.flatMap (·.entries)) := by
    intro k
    simp [State.install, ofKey_append]
  -- the outputs add nothing outside the slice
  have hadd : ∀ k, ¬ (¬ s.Consumed k ∧ k < boundary) →
      ofKey k (j.outputs.flatMap (·.entries)) = [] := by
    intro k hk
    obtain ⟨m, hperm, -, heq⟩ := hi.job_ofKey hin hr hj hno k
    rw [if_neg (by rw [contains_iff hf]; simpa using hk)] at hperm
    rw [heq, hperm.eq_nil]
    rfl
  refine ⟨hi.install_held boundary j.outputs hin, ?_, ?_⟩
  · intro k hk
    rw [consumed_install hf] at hk
    refine ⟨(hmoved k).trans (if_neg (not_le.2 hk)), ?_⟩
    rw [hcreated]
    by_cases hold : s.Consumed k
    · obtain ⟨-, m, hperm, hsorted, heq⟩ := hi.consumed k hold
      refine ⟨m, hperm, hsorted, ?_⟩
      rw [hadd k fun h => h.1 hold, append_nil, heq]
    · obtain ⟨hview, hnone⟩ := hi.pending k hold
      obtain ⟨m, hperm, hsorted, heq⟩ := hi.job_ofKey hin hr hj hno k
      rw [if_pos ((contains_iff hf _).2 ⟨hold, by simpa using hk⟩), hview] at hperm
      refine ⟨m, hperm, hsorted, ?_⟩
      rw [hnone, nil_append, heq]
  · intro k hk
    rw [consumed_install hf] at hk
    have hold : ¬ s.Consumed k := fun h => hk (lt_of_consumed hf hlow h)
    obtain ⟨hview, hnone⟩ := hi.pending k hold
    refine ⟨((hmoved k).trans (if_pos (not_lt.1 hk))).trans hview, ?_⟩
    rw [hcreated, hnone, hadd k fun h => hk h.2]
    rfl

theorem slice_armed {x : Table K V × ℕ}
    (hx : x ∈ (s.install c boundary j.outputs).armed) : (∃ t ∈ inputs, t.table = x.1) ∧
      ∀ t ∈ (s.install c boundary j.outputs).currentViews, t.table.id = x.1.id →
        t.SafelyPunched c.layout (reclaimable (c.layout.blocks x.1) x.2) := by
  rcases mem_append.1 hx with hx | hx
  · obtain ⟨hinput, hsafe⟩ := hi.armed x hx
    refine ⟨hinput, fun t' ht' hid => ?_⟩
    obtain ⟨t, ht, rfl⟩ := mem_map.1 ht'
    exact (hsafe t (surviving_subset t ht) hid).within (t.restrict_within boundary)
  · obtain ⟨u, hu, rfl⟩ := mem_map.1 hx
    have hview := surviving_subset u hu
    obtain ⟨u₀, hu₀, hw⟩ := hi.views u hview
    refine ⟨⟨u₀, hu₀, hw.table.symm⟩, fun t' ht' hid => ?_⟩
    obtain ⟨t, ht, rfl⟩ := mem_map.1 ht'
    obtain rfl := inj_on_of_nodup_map hi.ids (surviving_subset t ht) hview hid
    have hsorted : KeySorted t.table.entries := hi.view_keySorted hin hr hview
    refine safelyPunched_of_bound (t := t.restrict boundary) hsorted fun k hk => ?_
    simpa [TableView.isBelowRestriction, TableView.restrict] using hk

theorem slice (hlow : s.lower.all (decide <| · < boundary) = true) (hviews : s.currentViews ≠ [])
    (hj : s.job c ⟨s.lower, some boundary⟩ = some j) (hno : j.NoMarker)
    (hdrop : ∀ t ∈ s.currentViews, t.table.keyRange.max < boundary →
      ∀ e ∈ t.visible, e.userKey < boundary) :
    c.Invariant v inputs (s.install c boundary j.outputs) := by
  have hout := outputs_fresh hr hj
  refine {
    toAccounts := hi.slice_accounts hin hr hlow hviews hj hno hdrop
    target := ?_
    views := ?_
    ids := ?_
    fresh := forall_mem_append.2 ⟨hi.fresh, hout⟩
    finished := fun h => absurd ((hi.not_finished hviews).symm.trans h) (by simp)
    known := hi.known
    armed := fun x hx => hi.slice_armed hin hr hx
    safe := fun t ht => hi.slice_safe hin hout ht }
  · simpa [State.install, Version.withTightSlice, Version.replaceTables, Version.map] using hi.target
  · intro t' ht'
    obtain ⟨t, ht, rfl⟩ := mem_map.1 ht'
    obtain ⟨t₀, ht₀, hw⟩ := hi.views t (surviving_subset t ht)
    exact ⟨t₀, ht₀, (t.restrict_within boundary).trans hw⟩
  · have := hi.surviving_ids boundary
    simpa [State.install, Function.comp_def, TableView.restrict] using this

theorem tail (hviews : s.currentViews ≠ []) (hj : s.job c ⟨s.lower, none⟩ = some j)
    (hno : j.NoMarker) :
    c.Invariant v inputs (s.installTail c j.outputs) := by
  have hf := hi.not_finished hviews
  have hout := outputs_fresh hr hj
  have hheld := hi.tail_held hin j.outputs
  refine {
    held := hheld
    consumed := ?_
    pending := fun k hk => absurd (Or.inl rfl) hk
    target := ?_
    views := nofun
    ids := nodup_nil
    fresh := forall_mem_append.2 ⟨hi.fresh, hout⟩
    finished := fun _ => rfl
    known := hi.known
    armed := fun x hx => ⟨(hi.armed x hx).1, nofun⟩
    safe := ?_ }
  · intro k _
    refine ⟨rfl, ?_⟩
    have hcreated : ofKey k ((s.installTail c j.outputs).created.flatMap (·.entries)) =
        ofKey k (s.created.flatMap (·.entries)) ++ ofKey k (j.outputs.flatMap (·.entries)) := by
      simp [State.installTail, ofKey_append]
    rw [hcreated]
    obtain ⟨m, hperm, hsorted, heq⟩ := hi.job_ofKey hin hr hj hno k
    by_cases hold : s.Consumed k
    · obtain ⟨-, m', hperm', hsorted', heq'⟩ := hi.consumed k hold
      rw [if_neg (by rw [contains_iff hf]; exact fun h => h.1 hold)] at hperm
      refine ⟨m', hperm', hsorted', ?_⟩
      rw [heq', heq, hperm.eq_nil]
      exact append_nil _
    · obtain ⟨hview, hnone⟩ := hi.pending k hold
      rw [if_pos ((contains_iff hf _).2 ⟨hold, fun _ h => by cases h⟩), hview] at hperm
      refine ⟨m, hperm, hsorted, ?_⟩
      rw [hnone, nil_append, heq]
  · simpa [State.installTail, Version.withMerge, Version.replaceTables] using hi.target
  · intro t ht
    rw [hheld.mem_iff, append_nil, map_append, mem_append, mem_append] at ht
    rcases ht with ht | ht | ht
    · exact hi.safe t (hi.held.mem_iff.2 (mem_append_left _ ht))
    · exact hi.safe t (hi.mem_tables.2 (Or.inr (Or.inl ht)))
    · obtain ⟨o, ho, rfl⟩ := mem_map.1 ht
      exact hi.fresh_safe (hout o ho)

theorem step {e : Event K} {s' : State K V} (hok : s.Benign c e) (h : s.step c e = some s') :
    c.Invariant v inputs s' := by
  cases e with
  | slice boundary =>
    simp only [State.step] at h
    split at h
    case isFalse => cases h
    case isTrue hguard =>
      obtain ⟨j, hj, rfl⟩ := Option.map_eq_some_iff.1 h
      exact hi.slice hin hr hguard.1 hguard.2 hj (hok.1 j hj) hok.2
  | tail =>
    simp only [State.step] at h
    split at h
    case isFalse => cases h
    case isTrue hviews =>
      obtain ⟨j, hj, rfl⟩ := Option.map_eq_some_iff.1 h
      exact hi.tail hin hr hviews hj (hok j hj)
  | reclaim i =>
    obtain ⟨x, hx, rfl⟩ := Option.map_eq_some_iff.1 h
    exact hi.reclaim hin (mem_of_getElem? hx)
  | reopen =>
    cases h
    exact hi.reopen hin hr

end Invariant

section Run

variable {c} {s s' : State K V}

theorem step_within [RawKey K] [Inhabited V] {e : Event K}
    (hids : (s.currentViews.map (·.table.id)).Nodup) (h : s.step c e = some s') :
    ∀ t ∈ s.currentViews, ∀ t' ∈ s'.currentViews, t'.table.id = t.table.id → t'.Within t := by
  intro t ht t' ht' hid
  have hsame : t' ∈ s.currentViews → t'.Within t := fun hmem => by
    rw [inj_on_of_nodup_map hids hmem ht hid]
    exact TableView.Within.refl t
  cases e with
  | slice boundary =>
    simp only [State.step] at h
    split at h
    case isFalse => cases h
    case isTrue hguard =>
      obtain ⟨j, hj, rfl⟩ := Option.map_eq_some_iff.1 h
      obtain ⟨u, hu, rfl⟩ := mem_map.1 ht'
      rw [← inj_on_of_nodup_map hids (Invariant.surviving_subset u hu) ht hid]
      exact u.restrict_within boundary
  | tail =>
    simp only [State.step] at h
    split at h
    case isFalse => cases h
    case isTrue hviews =>
      obtain ⟨j, hj, rfl⟩ := Option.map_eq_some_iff.1 h
      cases ht'
  | reclaim i =>
    obtain ⟨x, hx, rfl⟩ := Option.map_eq_some_iff.1 h
    exact hsame ht'
  | reopen =>
    cases h
    exact hsame ht'

variable [RawKey K] [Inhabited V] {v : Version (TableView K V)} {punched : List (ℕ × ℕ)}
  {s₀ : State K V} {events : List (Event K)}

/-- After any number of slices, with or without the tail, and with any of the punches done: the
last version installed accounts for every entry of the inputs, every punched block is below its
table's restriction, and the next step lowers no restriction. -/
theorem run_accounts (hr : c.Ready v punched) (hstart : c.start v punched = some s₀)
    (hrun : Transition.Run (State.step c) (State.Benign c) s₀ events s) :
    c.Accounts v s₀.currentViews s ∧
      (∀ t ∈ s.version.tables, t.SafelyPunched c.layout (s.punchedOf t.table.id)) ∧
      ∀ e s', s.step c e = some s' → ∀ t ∈ s.currentViews, ∀ t' ∈ s'.currentViews,
        t'.table.id = t.table.id → t'.Within t := by
  obtain ⟨hin, hi⟩ := start_invariant hr hstart
  have hs : c.Invariant v s₀.currentViews s :=
    hrun.invariant (fun _ _ _ hs hok hstep => hs.step hin hr hok hstep) hi
  exact ⟨hs.toAccounts, hs.safe, fun e s' hstep => step_within hs.ids hstep⟩

end Run

section Examples

def singleEntryBlocks : BlockLayout K V where
  blocks t := t.entries.map fun e => ⟨[e], cons_ne_nil _ _, 1⟩
  content t := by simp [flatMap_map]

def mergeTwo : TightSpace K V where
  tableIds := [1, 2]
  destLevel := 1
  mvccGcWatermark := 0
  mergeOperator := none
  outputFull _ _ _ := false
  newTableIds i j := 3 + i + j
  layout := singleEntryBlocks

/-- A flush of two range deletes only: its key range is their hull in byte order, which ends at 4,
before the key 2 of its marker. -/
def twoRangeDeletes : List (Table ReversedKey ℕ) :=
  (MultiWriter.new (fun _ => 2) (fun _ _ => false) length false
    [⟨reversed 5, reversed 4, 7⟩, ⟨reversed 2, reversed 1, 3⟩]).writeAll []

def overReversed : Version (TableView ReversedKey ℕ) :=
  ⟨[[twoRangeDeletes.map TableView.whole], [[TableView.whole ⟨1, ⟨reversed 6, reversed 0⟩,
    [⟨reversed 6, 9, .value, 0⟩, ⟨reversed 3, 9, .value, 0⟩, ⟨reversed 0, 9, .value, 0⟩], []⟩]]]⟩

/-- A table over a flush of one range delete only, whose marker is at its start. -/
def rangeDeleteAbove : Version (TableView (List Byte) ℕ) :=
  ⟨[[((MultiWriter.new (fun _ => 2) (fun _ _ => false) length false
    [(⟨[3], [4], 9⟩ : RangeTombstone (List Byte))]).writeAll []).map TableView.whole],
    [[TableView.whole ⟨1, ⟨[1], [5]⟩, [⟨[1], 5, .value, 0⟩, ⟨[5], 5, .value, 0⟩], []⟩]]]⟩

/-- After the first slice the marker of the range deletes is in no table, and in two tables. -/
theorem firstSlice_miscounts :
    ((mergeTwo.start overReversed []).any fun s₀ =>
      mergeTwo.tightSliceBoundaries s₀.currentViews 2 = [reversed 3] &&
      (s₀.step mergeTwo (.slice (reversed 3))).any fun s =>
        (ofKey (reversed 2) (s₀.currentViews.flatMap (·.visible))).length = 1 &&
        (ofKey (reversed 2) (s.version.tables.flatMap (·.visible))).length = 0) = true ∧
    ((mergeTwo.start rangeDeleteAbove []).any fun s₀ =>
      mergeTwo.tightSliceBoundaries s₀.currentViews 1 = [[1], [3]] &&
      (s₀.step mergeTwo (.slice [1])).any fun s =>
        (ofKey [3] (s₀.currentViews.flatMap (·.visible))).length = 1 &&
        (ofKey [3] (s.version.tables.flatMap (·.visible))).length = 2) = true := by
  decide +kernel

def overlapping : Version (TableView (List Byte) ℕ) :=
  ⟨[[[TableView.whole ⟨2, ⟨[1], [4]⟩, [⟨[1], 7, .value, 0⟩, ⟨[4], 7, .value, 0⟩], []⟩]],
    [[TableView.whole ⟨1, ⟨[1], [5]⟩,
      [⟨[1], 3, .value, 1⟩, ⟨[3], 3, .value, 1⟩, ⟨[5], 3, .value, 1⟩], []⟩]]]⟩

theorem overlapping_ready : mergeTwo.Ready overlapping [] where
  distinct := by
    change List.Nodup _
    decide
  inputs := by decide
  sorted := by decide
  target := by decide
  fresh i j t ht := by
    have hid : t.table.id = 2 ∨ t.table.id = 1 := by
      revert t
      decide
    change 3 + i + j ≠ _
    omega
  known := nofun
  safe := fun _ _ _ _ h => absurd h not_mem_nil

theorem overlapping_accounts : ∃ s₀ s, mergeTwo.start overlapping [] = some s₀ ∧
    Transition.exec (State.step mergeTwo) s₀ [.slice [1], .slice [4], .reclaim 0, .tail] = some s ∧
    mergeTwo.Accounts overlapping s₀.currentViews s ∧
      (∀ t ∈ s.version.tables, t.SafelyPunched mergeTwo.layout (s.punchedOf t.table.id)) ∧
      ∀ e s', s.step mergeTwo e = some s' → ∀ t ∈ s.currentViews, ∀ t' ∈ s'.currentViews,
        t'.table.id = t.table.id → t'.Within t := by
  have hsome : ((mergeTwo.start overlapping []).bind fun s₀ =>
      Transition.exec (State.step mergeTwo) s₀
        [.slice [1], .slice [4], .reclaim 0, .tail]).isSome = true := by
    decide +kernel
  have hguard : ∀ s₀ ∈ mergeTwo.start overlapping [], Transition.Guarded (State.step mergeTwo)
      (State.Benign mergeTwo) s₀ [.slice [1], .slice [4], .reclaim 0, .tail] := by
    decide +kernel
  obtain ⟨s, hs⟩ := Option.isSome_iff_exists.1 hsome
  obtain ⟨s₀, hstart, hexec⟩ := Option.bind_eq_some_iff.1 hs
  exact ⟨s₀, s, hstart, hexec, run_accounts overlapping_ready hstart
    (Transition.run_of_guarded (hguard s₀ hstart) hexec)⟩

end Examples

end TightSpace

end LsmTree
