import LsmTree.Read.ChangeOrder
import LsmTree.Read.PointScan
import LsmTree.Theory.Pointwise

/-! Replaying the change stream of a tree into an empty one. -/
namespace LsmTree

open List

variable {K V : Type*}

namespace ScanSinceEvent

variable [Inhabited V]

/-- The entry that a consumer writes for a point event. A range deletion writes none. -/
def toEntry : ScanSinceEvent K V → InternalValue K V
  | insert key value seqno => ⟨key, seqno, .value, value⟩
  | mergeOperand key operand seqno => ⟨key, seqno, .mergeOperand, operand⟩
  | pointTombstone key seqno | rangeTombstone key _ seqno => ⟨key, seqno, .tombstone, default⟩
  | weakTombstone key seqno => ⟨key, seqno, .weakTombstone, default⟩

@[simp] theorem toEntry_userKey (e : ScanSinceEvent K V) : e.toEntry.userKey = e.key := by
  cases e <;> rfl

@[simp] theorem toEntry_seqno (e : ScanSinceEvent K V) : e.toEntry.seqno = e.seqno := by
  cases e <;> rfl

@[simp] theorem toEntry_isMergeOperand (e : ScanSinceEvent K V) :
    e.toEntry.isMergeOperand = e.isMergeOperand := by
  cases e <;> rfl

end ScanSinceEvent

def InternalValue.blank [Inhabited V] (e : InternalValue K V) : InternalValue K V :=
  if e.isTombstone then { e with value := default } else e

section Blank

variable [Inhabited V] (e : InternalValue K V)

namespace InternalValue

@[simp] theorem blank_userKey : e.blank.userKey = e.userKey := by
  unfold blank; split <;> rfl

@[simp] theorem blank_seqno : e.blank.seqno = e.seqno := by
  unfold blank; split <;> rfl

@[simp] theorem blank_valueType : e.blank.valueType = e.valueType := by
  unfold blank; split <;> rfl

theorem blank_value (h : e.isTombstone = false) : e.blank = e := by
  rw [blank, if_neg (by simp [h])]

end InternalValue

theorem ScanSinceEvent.mapEvent_spec {e : InternalValue K V} {event : ScanSinceEvent K V}
    (h : mapEvent e = .ok event) : event.toEntry = e.blank ∧ event.deletionFirst = 1 := by
  rcases e with ⟨key, seqno, type, value⟩
  cases type <;> cases h <;> exact ⟨rfl, rfl⟩

end Blank

section Read

variable [LinearOrder K] {m : MvccStream K V} {k : K} {es : List (InternalValue K V)}

namespace MvccStream

theorem collect_upTo : m.collect k (Collapse.upTo (fun e => !e.isMergeOperand) es) =
    m.collect k es := by
  induction es with
  | nil => rfl
  | cons e es ih =>
    rw [Collapse.upTo]
    by_cases hop : e.isMergeOperand = true
    · rw [if_neg (by simp [hop])]
      simp only [collect, ih]
    · rw [if_pos (by simp [hop])]
      simp only [collect]
      cases hv : e.valueType with
      | mergeOperand => simp [InternalValue.isMergeOperand, hv] at hop
      | _ => rfl

variable (m es) in
theorem readKey_upTo : m.readKey (Collapse.upTo (fun e => !e.isMergeOperand) es) =
    m.readKey es := by
  cases es with
  | nil => rfl
  | cons e es =>
    rw [Collapse.upTo]
    by_cases hop : e.isMergeOperand = true
    · rw [if_neg (by simp [hop])]
      simp only [readKey, emit_congr collect_upTo]
    · have hop' : e.isMergeOperand = false := by simpa using hop
      rw [if_pos (by simp [hop'])]
      simp only [readKey, emit_of_not_operand hop']

variable [Inhabited V]

theorem isRtSuppressed_blank {rts : List (RangeTombstone K)} {cutoff : ℕ}
    (e : InternalValue K V) : isRtSuppressed rts cutoff e.blank = isRtSuppressed rts cutoff e := by
  simp only [isRtSuppressed, InternalValue.blank_userKey, InternalValue.blank_seqno]

theorem collect_blank : m.collect k (es.map (·.blank)) = m.collect k es := by
  induction es with
  | nil => rfl
  | cons e es ih =>
    by_cases ht : e.isTombstone = true
    · simp only [map_cons, collect, InternalValue.blank_userKey, isRtSuppressed_blank,
        InternalValue.blank_valueType]
      simp only [InternalValue.isTombstone] at ht
      cases hv : e.valueType <;> rw [hv] at ht <;> cases ht
    · rw [Bool.not_eq_true] at ht
      simp only [map_cons, collect, ih, e.blank_value ht]

variable (m es) in
theorem readKey_blank : m.readKey (es.map (·.blank)) = m.readKey es := by
  cases es with
  | nil => rfl
  | cons e es =>
    by_cases ht : e.isTombstone = true
    · have ht' : e.blank.isTombstone = true := by
        rw [InternalValue.isTombstone, InternalValue.blank_valueType]
        exact ht
      have hop := InternalValue.not_operand_of_isTombstone ht
      have hop' := InternalValue.not_operand_of_isTombstone ht'
      simp [readKey, emit_of_not_operand hop, emit_of_not_operand hop', ht, ht']
    · rw [Bool.not_eq_true] at ht
      simp only [map_cons, readKey, e.blank_value ht, emit_congr collect_blank]

end MvccStream

end Read

namespace SuperVersion

variable [LinearOrder K] {sv : SuperVersion K V}

def EventsOf (source : List (InternalValue K V) × List (RangeTombstone K))
    (events : List (ScanSinceEvent K V)) : Prop :=
  ∃ points, List.Forall₂ (fun e event => ScanSinceEvent.mapEvent e = .ok event) source.1 points ∧
    events = points ++ source.2.map ScanSinceEvent.ofRangeTombstone

def Inline (sv : SuperVersion K V) : Prop :=
  ∀ source ∈ sv.changeSources, ∀ e ∈ source.1, e.valueType ≠ .indirection

variable {source : List (InternalValue K V) × List (RangeTombstone K)}

theorem mem_changeSources_seqno (h : source ∈ sv.changeSources) :
    (∀ e ∈ source.1, e.seqno ∈ sv.memtablesNewestFirst.flatMap (·.seqnos) ++
      sv.version.tables.flatMap (·.seqnos)) ∧
    ∀ rt ∈ source.2, rt.seqno ∈ sv.memtablesNewestFirst.flatMap (·.seqnos) ++
      sv.version.tables.flatMap (·.seqnos) := by
  rcases mem_append.1 h with h | h
  · obtain ⟨m, hm, rfl⟩ := mem_map.1 h
    refine ⟨fun e he => ?_, fun rt hrt => ?_⟩ <;> refine mem_append_left _
      (mem_flatMap.2 ⟨m, hm, ?_⟩)
    · exact mem_append_left _ (mem_map_of_mem he)
    · have hmem := (mem_insertionSort _).1 (SortedSearch.mem_destutter_ne.1 hrt)
      exact mem_append_right _ (mem_map_of_mem hmem)
  · obtain ⟨t, ht, rfl⟩ := mem_map.1 h
    refine ⟨fun e he => ?_, fun rt hrt => ?_⟩ <;> refine mem_append_right _
      (mem_flatMap.2 ⟨t, ht, ?_⟩)
    · exact mem_append_left _ (mem_map_of_mem he)
    · exact mem_append_right _ (mem_map_of_mem ((mem_insertionSort _).1 hrt))

theorem changeEvents_all (h : sv.Inline) (stop : ℕ)
    (hstop : ∀ n ∈ sv.memtablesNewestFirst.flatMap (·.seqnos) ++
      sv.version.tables.flatMap (·.seqnos), n ≤ stop) (hsource : source ∈ sv.changeSources) :
    ∃ events, changeEvents 0 stop source = .ok events ∧ EventsOf source events := by
  obtain ⟨hes, hrts⟩ := mem_changeSources_seqno hsource
  have hmap : ∀ e ∈ source.1, ∃ event, ScanSinceEvent.mapEvent e = .ok event ∧
      ScanSinceEvent.mapEvent e = .ok event := by
    intro e he
    have hne := h source hsource e he
    rw [ScanSinceEvent.mapEvent]
    cases hv : e.valueType with
    | indirection => exact absurd hv hne
    | _ => exact ⟨_, rfl, rfl⟩
  obtain ⟨points, hpoints, hall⟩ := Pointwise.exists_mapM_ok hmap
  refine ⟨points ++ source.2.map ScanSinceEvent.ofRangeTombstone, ?_, points, hall, rfl⟩
  have hfilter : (source.1.filter fun e => decide (0 ≤ e.seqno ∧ e.seqno ≤ stop)) = source.1 :=
    filter_eq_self.2 fun e he => by simpa using hstop _ (hes e he)
  have hfilter' : (source.2.filter fun rt => decide (0 ≤ rt.seqno ∧ rt.seqno ≤ stop)) =
      source.2 := filter_eq_self.2 fun rt hrt => by simpa using hstop _ (hrts rt hrt)
  simp only [changeEvents, hfilter, hfilter', hpoints]
  rfl

variable [RawKey K] [LinearOrder V]

theorem scanSinceSeqno_zero (h : sv.Inline) : ∃ sources,
    List.Forall₂ EventsOf sv.changeSources sources ∧
      sv.scanSinceSeqno 0 = .ok (mergeSourceEvents sources) := by
  cases hend : sv.endSeqno with
  | some stop =>
    have hstop := (max?_eq_some_iff.1 hend).2
    obtain ⟨sources, hsources, hall⟩ := Pointwise.exists_mapM_ok fun source hsource =>
      changeEvents_all h _ hstop hsource
    refine ⟨sources, hall, ?_⟩
    simp only [scanSinceSeqno, hend, hsources]
    rfl
  | none =>
    -- nothing has a sequence number, and no source has an event
    have hnil := max?_eq_none_iff.1 hend
    obtain ⟨sources, -, hall⟩ := Pointwise.exists_mapM_ok fun source hsource =>
      changeEvents_all h 0 (by rw [hnil]; simp) hsource
    refine ⟨sources, hall, ?_⟩
    have hempty : placedEvents sources = [] := by
      apply eq_nil_iff_forall_not_mem.2
      intro x hx
      obtain ⟨events, hevents, hx⟩ := mem_placedEvents hx
      obtain ⟨source, hsource, points, hpoints, rfl⟩ :=
        Pointwise.exists_of_forall₂_mem hall (mem_of_getElem? hevents)
      obtain ⟨hes, hrts⟩ := mem_changeSources_seqno hsource
      rw [hnil] at hes hrts
      have hpoints' : source.1 = [] := eq_nil_iff_forall_not_mem.2 fun e he => nomatch hes e he
      have hrts' : source.2 = [] := eq_nil_iff_forall_not_mem.2 fun rt hrt => nomatch hrts rt hrt
      rw [hpoints', List.forall₂_nil_left_iff] at hpoints
      rw [hpoints, hrts'] at hx
      cases hx
    simp [scanSinceSeqno, hend, mergeSourceEvents, hempty]

end SuperVersion

section Sources

variable [LinearOrder K]

def NewestFirst (source : List (ScanSinceEvent K V)) : Prop :=
  source.Pairwise fun a b => a.deletionFirst = 1 → b.deletionFirst = 1 → a.key = b.key →
    b.seqno ≤ a.seqno

namespace SuperVersion

variable {sv : SuperVersion K V} {k : K} {seqno : ℕ}

variable {source : List (InternalValue K V) × List (RangeTombstone K)}

theorem changeSource_sorted (h : source ∈ sv.changeSources) :
    (source.1.Pairwise fun a b => a.le b = true) ∧
      source.2.Pairwise fun a b => a.start ≤ b.start := by
  rcases mem_append.1 h with h | h
  · obtain ⟨m, -, rfl⟩ := mem_map.1 h
    have : IsTrans (RangeTombstone K) fun a b => RangeTombstone.le a b = true :=
      ⟨fun _ _ _ => RangeTombstone.le_trans⟩
    have : Std.Total fun a b : RangeTombstone K => RangeTombstone.le a b = true :=
      ⟨RangeTombstone.le_total⟩
    exact ⟨m.sorted, ((pairwise_insertionSort _ _).sublist
      (destutter_sublist _ _)).imp RangeTombstone.start_le_of_le⟩
  · obtain ⟨t, ht, rfl⟩ := mem_map.1 h
    have : IsTrans (RangeTombstone K) fun a b => a.start ≤ b.start := ⟨fun _ _ _ => le_trans⟩
    have : Std.Total fun a b : RangeTombstone K => a.start ≤ b.start :=
      ⟨fun _ _ => le_total _ _⟩
    exact ⟨sv.tablesSorted t ht, pairwise_insertionSort _ _⟩

variable [Inhabited V]

theorem EventsOf.ordered {events : List (ScanSinceEvent K V)} (h : EventsOf source events)
    (hsource : source ∈ sv.changeSources) : KeysAscend events ∧ NewestFirst events := by
  obtain ⟨hentries, hrts⟩ := changeSource_sorted hsource
  obtain ⟨points, hpoints, rfl⟩ := h
  have hsorted : points.Pairwise fun a b => InternalValue.le a.toEntry b.toEntry = true := by
    refine Pointwise.pairwise_of_forall₂ hpoints hentries ?_
    intro e a e' b ha hb hle
    rw [(ScanSinceEvent.mapEvent_spec ha).1, (ScanSinceEvent.mapEvent_spec hb).1]
    rw [InternalValue.le_iff] at hle ⊢
    simpa using hle
  have hpoint : ∀ a ∈ points, a.deletionFirst = 1 := by
    intro a ha
    obtain ⟨e, -, hea⟩ := Pointwise.exists_of_forall₂_mem hpoints ha
    exact (ScanSinceEvent.mapEvent_spec hea).2
  have hrange : ∀ a ∈ source.2.map (ScanSinceEvent.ofRangeTombstone (V := V)),
      a.deletionFirst = 0 := by
    intro a ha
    obtain ⟨rt, -, rfl⟩ := mem_map.1 ha
    rfl
  constructor
  · refine pairwise_append.2 ⟨?_, ?_, ?_⟩
    · apply hsorted.imp
      intro a b hle _
      simpa using InternalValue.le_key.1 hle
    · apply pairwise_map.2
      apply hrts.imp
      intro a b hle _
      exact hle
    · intro a ha b hb hd
      rw [hpoint a ha, hrange b hb] at hd
      cases hd
  · refine pairwise_append.2 ⟨?_, ?_, ?_⟩
    · apply hsorted.imp
      intro a b hle _ _ hk
      rcases InternalValue.le_iff.1 hle with hlt | hle
      · simp [hk] at hlt
      · simpa using hle.2
    · apply pairwise_map.2
      apply hrts.imp
      intro a b _ hd
      cases hd
    · intro a _ b hb _ hd
      rw [hrange b hb] at hd
      cases hd

omit [Inhabited V] in
theorem run_unique {level : List (List (Table K V))} (hl : level ∈ sv.version.levels)
    {run : List (Table K V)} (hr : run ∈ level) : run.Pairwise fun a b =>
      a.entries.filter (InternalValue.matchesKey k seqno) = [] ∨
        b.entries.filter (InternalValue.matchesKey k seqno) = [] := by
  apply (sortedRun hl hr).1.imp_of_mem
  intro a b ha hb hab
  by_contra hne
  rw [not_or] at hne
  obtain ⟨e, he⟩ := exists_mem_of_ne_nil _ hne.1
  obtain ⟨f, hf⟩ := exists_mem_of_ne_nil _ hne.2
  rw [mem_filter, InternalValue.matchesKey_iff] at he hf
  have hae := ((sv.tablesWF a (mem_tables hl hr ha)).bounds e he.1).2
  have hbf := ((sv.tablesWF b (mem_tables hl hr hb)).bounds f hf.1).1
  rw [he.2.1] at hae
  rw [hf.2.1] at hbf
  exact absurd (hab.trans_le hbf) (not_lt.2 hae)

omit [Inhabited V] in
theorem history_eq_changeSources : sv.history k seqno = KWayMerge.mergeAll InternalValue.le
    (sv.changeSources.map fun source => source.1.filter (InternalValue.matchesKey k seqno)) := by
  have hruns : ∀ runs : List (List (Table K V)), (∀ run ∈ runs, run ∈ sv.version.levels.flatten) →
      (runs.map fun run => (runEntries run).filter (InternalValue.matchesKey k seqno)).foldr
        (KWayMerge.merge InternalValue.le) [] =
      (runs.flatten.map fun t => t.entries.filter (InternalValue.matchesKey k seqno)).foldr
        (KWayMerge.merge InternalValue.le) [] := by
    intro runs hruns
    induction runs with
    | nil => rfl
    | cons run runs ih =>
      obtain ⟨hrun, hruns⟩ := forall_mem_cons.1 hruns
      obtain ⟨level, hl, hr⟩ := mem_flatten.1 hrun
      rw [flatten_cons, map_append, foldr_append,
        KWayMerge.foldr_merge_of_unique (run_unique hl hr), map_cons, foldr_cons, ih hruns,
        runEntries, filter_flatMap]
  rw [history, sources, changeSources, KWayMerge.mergeAll, KWayMerge.mergeAll, map_append,
    map_append, foldr_append, foldr_append, map_map, map_map,
    map_map, map_map]
  exact congrArg (fun tail => List.foldr (KWayMerge.merge InternalValue.le) tail
    (sv.memtablesNewestFirst.map fun m => m.entries.filter (InternalValue.matchesKey k seqno)))
    (hruns sv.version.levels.flatten fun _ h => h)

end SuperVersion

end Sources

section PlacedHistory

variable [LinearOrder K] [Inhabited V] {k : K} {seqno : ℕ} {x : PlacedEvent K V}
  {sources : List (List (ScanSinceEvent K V))}

def ScanSinceEvent.visibleTo (k : K) (seqno : ℕ) (e : ScanSinceEvent K V) : Bool :=
  !e.isRangeTombstone && e.toEntry.matchesKey k seqno

theorem ScanSinceEvent.visibleTo_iff {e : ScanSinceEvent K V} : e.visibleTo k seqno = true ↔
    e.deletionFirst = 1 ∧ e.key = k ∧ e.seqno < seqno := by
  simp only [visibleTo, deletionFirst, Bool.and_eq_true, InternalValue.matchesKey_iff,
    toEntry_userKey, toEntry_seqno]
  cases e.isRangeTombstone <;> simp

def placeSource (source : List (ScanSinceEvent K V)) (recency : ℕ) : List (PlacedEvent K V) :=
  source.zipIdx.map fun a => ⟨a.1, recency, a.2⟩

omit [LinearOrder K] [Inhabited V] in
theorem mem_placeSource {source : List (ScanSinceEvent K V)} {recency : ℕ} :
    x ∈ placeSource source recency ↔
      x.recency = recency ∧ source[x.position]? = some x.event := by
  rw [placeSource, mem_map]
  constructor
  · rintro ⟨a, ha, rfl⟩
    exact ⟨rfl, mem_zipIdx_iff_getElem?.1 ha⟩
  · rintro ⟨rfl, hx⟩
    exact ⟨(x.event, x.position), mem_zipIdx_iff_getElem?.2 hx, rfl⟩

omit [LinearOrder K] [Inhabited V] in
theorem placeSource_filter_map {γ : Type*} (source : List (ScanSinceEvent K V)) (recency : ℕ)
    (p : ScanSinceEvent K V → Bool) (f : ScanSinceEvent K V → γ) :
    ((placeSource source recency).filter fun x => p x.event).map (fun x => f x.event) =
      (source.filter p).map f := by
  have hmap : (placeSource source recency).map (·.event) = source := by
    rw [placeSource, map_map]
    exact zipIdx_map_fst _ _
  conv_rhs => rw [← hmap]
  rw [filter_map, map_map]
  rfl

omit [LinearOrder K] [Inhabited V] in
theorem placeSource_positions (source : List (ScanSinceEvent K V)) (recency : ℕ) :
    (placeSource source recency).Pairwise fun a b => a.position < b.position := by
  apply pairwise_map.2
  apply pairwise_map.1
  rw [zipIdx_map_snd]
  exact pairwise_lt_range'

/-- The point events of `k` below `seqno`, merged as the tree merges the entries. -/
def placedHistory (sources : List (List (ScanSinceEvent K V))) (k : K) (seqno : ℕ) :
    List (PlacedEvent K V) :=
  KWayMerge.mergeAll (fun a b => InternalValue.le a.event.toEntry b.event.toEntry)
    (sources.zipIdx.map fun s => (placeSource s.1 s.2).filter fun x => x.event.visibleTo k seqno)

theorem mem_placedHistory : x ∈ placedHistory sources k seqno ↔
    x.InPlace sources ∧ x.event.visibleTo k seqno = true := by
  rw [placedHistory, KWayMerge.mem_mergeAll]
  constructor
  · rintro ⟨_, hs, hx⟩
    obtain ⟨⟨source, recency⟩, hsource, rfl⟩ := mem_map.1 hs
    obtain ⟨hx, hv⟩ := mem_filter.1 hx
    obtain ⟨rfl, hpos⟩ := mem_placeSource.1 hx
    exact ⟨⟨source, mem_zipIdx_iff_getElem?.1 hsource, hpos⟩, hv⟩
  · rintro ⟨⟨source, hsource, hpos⟩, hv⟩
    refine ⟨_, mem_map_of_mem (a := (source, x.recency))
      (mem_zipIdx_iff_getElem?.2 hsource), ?_⟩
    exact mem_filter.2 ⟨mem_placeSource.2 ⟨rfl, hpos⟩, hv⟩

/-- Key, newest first, newest source first, and the order of the source. -/
def PlacedEvent.readSlot (x : PlacedEvent K V) : K ×ₗ ℕᵒᵈ ×ₗ ℕ ×ₗ ℕ :=
  toLex (x.event.key, toLex (OrderDual.toDual x.event.seqno, toLex (x.recency, x.position)))

omit [Inhabited V] in
theorem PlacedEvent.readSlot_lt {x y : PlacedEvent K V} : x.readSlot < y.readSlot ↔
    x.event.key < y.event.key ∨ x.event.key = y.event.key ∧
      (y.event.seqno < x.event.seqno ∨ x.event.seqno = y.event.seqno ∧
        (x.recency < y.recency ∨ x.recency = y.recency ∧ x.position < y.position)) := by
  simp only [readSlot, Prod.Lex.toLex_lt_toLex, OrderDual.toDual_lt_toDual, OrderDual.toDual_inj]

theorem placedHistory_numbered {i : ℕ} {s : List (PlacedEvent K V)}
    (h : (sources.zipIdx.map fun s =>
      (placeSource s.1 s.2).filter fun x => x.event.visibleTo k seqno)[i]? = some s) :
    ∀ x ∈ s, x.recency = 0 + i := by
  intro x hx
  rw [getElem?_map, Option.map_eq_some_iff] at h
  obtain ⟨⟨source, recency⟩, hs, rfl⟩ := h
  rw [getElem?_zipIdx, Option.map_eq_some_iff] at hs
  obtain ⟨_, -, heq⟩ := hs
  cases heq
  exact (mem_placeSource.1 (mem_filter.1 hx).1).1

theorem placedHistory_sorted (hnew : ∀ source ∈ sources, NewestFirst source) :
    (placedHistory sources k seqno).Pairwise fun a b => a.readSlot < b.readSlot := by
  refine KWayMerge.mergeAll_pairwise_numbered
    (fun a b c (h : a.readSlot < b.readSlot) h' => h.trans h') ?_ ?_ (k := 0)
    (fun _ _ => placedHistory_numbered) ?_
  · intro a b hab hle
    rw [PlacedEvent.readSlot_lt]
    rw [InternalValue.le_iff] at hle
    simp only [ScanSinceEvent.toEntry_userKey, ScanSinceEvent.toEntry_seqno] at hle
    rcases hle with hlt | ⟨hk, hs⟩
    · exact Or.inl hlt
    · rcases Nat.lt_or_eq_of_le hs with hlt | heq
      · exact Or.inr ⟨hk, Or.inl hlt⟩
      · exact Or.inr ⟨hk, Or.inr ⟨heq.symm, Or.inl hab⟩⟩
  · intro a b _ hle
    rw [PlacedEvent.readSlot_lt]
    rw [Bool.eq_false_iff, Ne, InternalValue.le_iff, not_or, not_and] at hle
    simp only [ScanSinceEvent.toEntry_userKey, ScanSinceEvent.toEntry_seqno] at hle
    rcases (not_lt.1 hle.1).lt_or_eq with hlt | heq
    · exact Or.inl hlt
    · exact Or.inr ⟨heq, Or.inl (not_le.1 (hle.2 heq.symm))⟩
  · intro s hs
    obtain ⟨⟨source, recency⟩, hsource, rfl⟩ := mem_map.1 hs
    have hsource := hnew source (mem_of_getElem? (mem_zipIdx_iff_getElem?.1 hsource))
    apply ((placeSource_positions source recency).sublist filter_sublist).imp_of_mem
    intro a b ha hb hab
    obtain ⟨ha, hva⟩ := mem_filter.1 ha
    obtain ⟨hb, hvb⟩ := mem_filter.1 hb
    obtain ⟨hra, hpa⟩ := mem_placeSource.1 ha
    obtain ⟨hrb, hpb⟩ := mem_placeSource.1 hb
    obtain ⟨hda, hka, -⟩ := ScanSinceEvent.visibleTo_iff.1 hva
    obtain ⟨hdb, hkb, -⟩ := ScanSinceEvent.visibleTo_iff.1 hvb
    obtain ⟨hlta, hea⟩ := List.getElem?_eq_some_iff.1 hpa
    obtain ⟨hltb, heb⟩ := List.getElem?_eq_some_iff.1 hpb
    have hle : b.event.seqno ≤ a.event.seqno := by
      have := pairwise_iff_getElem.1 hsource _ _ hlta hltb hab
      rw [hea, heb] at this
      exact this hda hdb (hka.trans hkb.symm)
    rw [PlacedEvent.readSlot_lt]
    refine Or.inr ⟨hka.trans hkb.symm, ?_⟩
    rcases Nat.lt_or_eq_of_le hle with hlt | heq
    · exact Or.inl hlt
    · exact Or.inr ⟨heq.symm, Or.inr ⟨hra.trans hrb.symm, hab⟩⟩

namespace SuperVersion

variable {sv : SuperVersion K V}

theorem EventsOf.toEntry_filter {source : List (InternalValue K V) × List (RangeTombstone K)}
    {events : List (ScanSinceEvent K V)} (h : EventsOf source events) :
    (source.1.filter (InternalValue.matchesKey k seqno)).map (·.blank) =
      (events.filter (ScanSinceEvent.visibleTo k seqno)).map (·.toEntry) := by
  obtain ⟨points, hpoints, rfl⟩ := h
  have hrange : (source.2.map (ScanSinceEvent.ofRangeTombstone (V := V))).filter
      (ScanSinceEvent.visibleTo k seqno) = [] := by
    apply filter_eq_nil_iff.2
    intro a ha
    obtain ⟨rt, -, rfl⟩ := mem_map.1 ha
    simp [ScanSinceEvent.visibleTo, ScanSinceEvent.ofRangeTombstone,
      ScanSinceEvent.isRangeTombstone]
  rw [filter_append, hrange, append_nil]
  generalize source.1 = entries at hpoints ⊢
  induction hpoints with
  | nil => rfl
  | @cons e a entries points hea _ ih =>
    obtain ⟨hentry, hd⟩ := ScanSinceEvent.mapEvent_spec hea
    have hvis : a.visibleTo k seqno = e.matchesKey k seqno := by
      rw [Bool.eq_iff_iff, ScanSinceEvent.visibleTo_iff, InternalValue.matchesKey_iff,
        ← a.toEntry_userKey, ← a.toEntry_seqno, hentry]
      simp [hd]
    rw [filter_cons, filter_cons, hvis]
    split
    · rw [map_cons, map_cons, hentry, ih]
    · exact ih

theorem placedHistory_toEntry (hall : List.Forall₂ EventsOf sv.changeSources sources) :
    (placedHistory sources k seqno).map (·.event.toEntry) =
      (sv.history k seqno).map (·.blank) := by
  have hsources : ((sources.zipIdx.map fun s =>
      (placeSource s.1 s.2).filter fun x => x.event.visibleTo k seqno).map
        (·.map (·.event.toEntry))) =
      (sv.changeSources.map fun source =>
        source.1.filter (InternalValue.matchesKey k seqno)).map (·.map (·.blank)) := by
    have hplain : (sv.changeSources.map fun source =>
        (source.1.filter (InternalValue.matchesKey k seqno)).map (·.blank)) =
        sources.map fun source =>
          (source.filter (ScanSinceEvent.visibleTo k seqno)).map (·.toEntry) :=
      Pointwise.map_eq_of_forall₂ (hall.imp fun _ _ h => h.toEntry_filter)
    rw [map_map, map_map]
    refine Eq.trans ?_ hplain.symm
    conv_rhs => rw [← zipIdx_map_fst 0 sources, map_map]
    apply map_congr_left
    intro s _
    exact placeSource_filter_map s.1 s.2 _ _
  rw [history_eq_changeSources, placedHistory,
    KWayMerge.map_mergeAll_of_le InternalValue.le fun _ _ => rfl, hsources,
    KWayMerge.map_mergeAll_of_le InternalValue.le]
  intro a b
  simp only [InternalValue.le, InternalValue.blank_userKey, InternalValue.blank_seqno]

end SuperVersion

section Thinned

variable [RawKey K] [LinearOrder V]

def replayedHistory (sources : List (List (ScanSinceEvent K V))) (k : K) (seqno : ℕ) :
    List (PlacedEvent K V) :=
  ((replayed sources).filter fun x => x.event.visibleTo k seqno).reverse

theorem mem_replayedHistory : x ∈ replayedHistory sources k seqno ↔
    x ∈ placedEvents sources ∧ x.event.visibleTo k seqno = true := by
  rw [replayedHistory, mem_reverse, mem_filter, mem_replayed]

theorem replayedHistory_sorted (ho : ∀ source ∈ sources, KeysAscend source) :
    (replayedHistory sources k seqno).Pairwise fun a b => a.readSlot ≤ b.readSlot := by
  apply pairwise_reverse.2
  apply ((replayed_sorted ho).sublist filter_sublist).imp_of_mem
  intro a b ha hb hle
  obtain ⟨hda, hka, -⟩ := ScanSinceEvent.visibleTo_iff.1 (mem_filter.1 ha).2
  obtain ⟨hdb, hkb, -⟩ := ScanSinceEvent.visibleTo_iff.1 (mem_filter.1 hb).2
  simp only [PlacedEvent.slot, PlacedEvent.readSlot, Prod.Lex.toLex_le_toLex, hda, hdb, hka, hkb,
    OrderDual.toDual_lt_toDual, OrderDual.toDual_le_toDual, OrderDual.toDual_inj, lt_self_iff_false,
    true_and, false_or] at hle ⊢
  rcases hle with hlt | ⟨heq, hle⟩
  · exact Or.inl hlt
  · refine Or.inr ⟨heq.symm, ?_⟩
    rcases hle with hlt | ⟨heq, hle⟩
    · exact Or.inl hlt
    · exact Or.inr ⟨heq.symm, hle⟩

variable (k seqno) in
theorem replayedHistory_thins : Collapse.Thins (fun x : PlacedEvent K V => !x.event.isMergeOperand)
    PlacedEvent.readSlot (replayedHistory sources k seqno) (placedHistory sources k seqno) where
  subset := by
    intro x hx
    obtain ⟨hx, hv⟩ := mem_replayedHistory.1 hx
    exact mem_placedHistory.2 ⟨mem_placedEvents hx, hv⟩
  once := by
    have hnodup : ((placedEvents sources).filter (·.event.isMergeOperand)).Nodup :=
      placedEvents_operands.nodup_iff.2 (allRuns_placed_nodup.sublist filter_sublist)
    have hreplayed : ((replayed sources).filter (·.event.isMergeOperand)).Nodup :=
      ((perm_insertionSort _ _).filter _).nodup_iff.2 hnodup
    simp only [replayedHistory, Bool.not_not]
    rw [filter_reverse, nodup_reverse, filter_comm]
    exact hreplayed.sublist filter_sublist
  kept := by
    intro x hx hop
    obtain ⟨hx, hv⟩ := mem_placedHistory.1 hx
    obtain ⟨run, hrun, hxr⟩ := hx.exists_run
    refine mem_replayedHistory.2 ⟨?_, hv⟩
    have hin := placedEvents_operands.mem_iff.2
      (mem_filter.2 ⟨mem_flatMap.2 ⟨run, hrun, hxr⟩, by simpa using hop⟩)
    exact (mem_filter.1 hin).1
  covered := by
    intro x hx hop
    obtain ⟨hx, hv⟩ := mem_placedHistory.1 hx
    obtain ⟨y, hy, he, hle⟩ := hx.covered (by simpa using hop)
    refine ⟨y, mem_replayedHistory.2 ⟨hy, by rw [he]; exact hv⟩, by rw [he]; exact hop, ?_⟩
    simp only [PlacedEvent.readSlot, he, Prod.Lex.toLex_le_toLex, lt_self_iff_false, true_and,
      false_or]
    rcases hle with hlt | ⟨heq, hpos⟩
    · exact Or.inl hlt
    · exact Or.inr ⟨heq, hpos.le⟩

end Thinned

end PlacedHistory

section Replica

variable [LinearOrder K] [Inhabited V] {k : K} {seqno : ℕ} {events : List (ScanSinceEvent K V)}

theorem applyEvent_entries (m : Memtable K V) (e : ScanSinceEvent K V) :
    (applyEvent m e).entries = if e.isRangeTombstone then m.entries else
      m.entries.orderedInsert (fun a b => a.le b = true) e.toEntry := by
  cases e with
  | rangeTombstone start stop seqno =>
    simp only [applyEvent, Memtable.insertRangeTombstone, ScanSinceEvent.isRangeTombstone, if_true]
    split <;> rfl
  | _ => rfl

theorem applyEvent_rangeTombstones (m : Memtable K V) (e : ScanSinceEvent K V)
    (rt : RangeTombstone K) : rt ∈ (applyEvent m e).rangeTombstones ↔
      rt ∈ m.rangeTombstones ∨ e = ScanSinceEvent.ofRangeTombstone rt ∧ rt.start < rt.stop := by
  cases e with
  | rangeTombstone start stop seqno =>
    simp only [applyEvent, Memtable.insertRangeTombstone]
    split
    case isTrue hlt =>
      simp only [mem_append, mem_singleton]
      refine or_congr Iff.rfl ⟨?_, ?_⟩
      · rintro rfl
        exact ⟨rfl, hlt⟩
      · rintro ⟨heq, -⟩
        cases heq
        rfl
    case isFalse hlt =>
      refine ⟨Or.inl, ?_⟩
      rintro (h | ⟨heq, hlt'⟩)
      · exact h
      · cases heq
        exact absurd hlt' hlt
  | _ => simp [applyEvent, Memtable.insert, ScanSinceEvent.ofRangeTombstone]

omit [Inhabited V] in
theorem filter_orderedInsert {e : InternalValue K V} {l : List (InternalValue K V)}
    (h : ∀ f ∈ l, f.seqno ≤ e.seqno) :
    (l.orderedInsert (fun a b => a.le b = true) e).filter
        (InternalValue.matchesKey k seqno) =
      if e.matchesKey k seqno then e :: l.filter (InternalValue.matchesKey k seqno)
      else l.filter (InternalValue.matchesKey k seqno) := by
  induction l with
  | nil => rw [orderedInsert_nil, filter_cons]
  | cons f l ih =>
    obtain ⟨hf, hl⟩ := forall_mem_cons.1 h
    rw [orderedInsert_cons]
    by_cases hle : e.le f = true
    · rw [if_pos hle, filter_cons]
    · rw [if_neg hle, filter_cons, ih hl, filter_cons]
      by_cases hm : e.matchesKey k seqno = true
      · -- an entry in front of the new one is of another key
        have hne : ¬ f.matchesKey k seqno = true := by
          intro hmf
          apply hle
          rw [InternalValue.matchesKey_iff] at hm hmf
          exact InternalValue.le_iff.2 (Or.inr ⟨hm.1.trans hmf.1.symm, hf⟩)
        rw [if_neg hne, if_neg hne]
      · rw [if_neg hm, if_neg hm]

theorem foldl_applyEvent_entries (hs : events.Pairwise fun a b => a.seqno ≤ b.seqno) :
    ((events.foldl applyEvent (Memtable.empty : Memtable K V)).entries.filter
        (InternalValue.matchesKey k seqno) =
      ((events.filter (ScanSinceEvent.visibleTo k seqno)).map (·.toEntry)).reverse) ∧
    ∀ f ∈ (events.foldl applyEvent (Memtable.empty : Memtable K V)).entries,
      ∃ e ∈ events, f = e.toEntry := by
  induction events using List.reverseRecOn with
  | nil => exact ⟨rfl, by simp [Memtable.empty]⟩
  | append_singleton events e ih =>
    obtain ⟨hs, -, hlast⟩ := pairwise_append.1 hs
    obtain ⟨hfilter, hmem⟩ := ih hs
    rw [foldl_append, foldl_cons, foldl_nil, applyEvent_entries, filter_append,
      map_append, reverse_append, ← hfilter, filter_singleton]
    by_cases hr : e.isRangeTombstone = true
    · have hv : e.visibleTo k seqno = false := by simp [ScanSinceEvent.visibleTo, hr]
      simp only [hr, hv, if_true]
      refine ⟨rfl, fun f hf => ?_⟩
      obtain ⟨e', he', rfl⟩ := hmem f hf
      exact ⟨e', mem_append_left _ he', rfl⟩
    · have hv : e.visibleTo k seqno = e.toEntry.matchesKey k seqno := by
        simp [ScanSinceEvent.visibleTo, hr]
      rw [if_neg hr]
      constructor
      · rw [filter_orderedInsert, hv]
        · cases e.toEntry.matchesKey k seqno <;> rfl
        · intro f hf
          obtain ⟨e', he', rfl⟩ := hmem f hf
          rw [e'.toEntry_seqno, e.toEntry_seqno]
          exact hlast e' he' e (mem_singleton_self e)
      · intro f hf
        rcases (mem_orderedInsert _).1 hf with rfl | hf
        · exact ⟨e, mem_append_right _ (mem_singleton_self e), rfl⟩
        · obtain ⟨e', he', rfl⟩ := hmem f hf
          exact ⟨e', mem_append_left _ he', rfl⟩

theorem mem_foldl_rangeTombstones (rt : RangeTombstone K) :
    rt ∈ (events.foldl applyEvent (Memtable.empty : Memtable K V)).rangeTombstones ↔
      ScanSinceEvent.ofRangeTombstone rt ∈ events ∧ rt.start < rt.stop := by
  induction events using List.reverseRecOn with
  | nil => simp [Memtable.empty]
  | append_singleton events e ih =>
    rw [foldl_append, foldl_cons, foldl_nil, applyEvent_rangeTombstones, ih,
      mem_append, mem_singleton, or_and_right, eq_comm (a := e)]

namespace SuperVersion

theorem replay_writtenInOrder : (replay events).WrittenInOrder := by
  constructor
  · exact pairwise_singleton _ _
  · exact List.Pairwise.nil

theorem replay_history : (replay events).history k seqno =
    (replay events).activeMemtable.entries.filter (InternalValue.matchesKey k seqno) := by
  change KWayMerge.merge InternalValue.le _ [] = _
  rw [KWayMerge.merge_eq]
  simp [replay]

variable {rt : RangeTombstone K}

theorem mem_replay_rangeTombstones :
    rt ∈ (replay events).rangeTombstones ↔
      ScanSinceEvent.ofRangeTombstone rt ∈ events ∧ rt.start < rt.stop := by
  rw [← mem_foldl_rangeTombstones]
  simp [rangeTombstones, tableRangeTombstones, replay, Version.tables]

variable {op : Option (MergeOperator K V)} {sv : SuperVersion K V}

omit [Inhabited V] in
theorem consulted_of_memtables (h : ∀ t ∈ sv.version.tables, t.rangeTombstones = []) (k : K)
    (seqno : ℕ) : sv.Consulted k seqno := by
  rintro operands x older hsplit - - hs
  rw [← hs]
  apply isRtSuppressed_congr
  intro rt _ hc
  rw [history_userKey (hsplit ▸ mem_append_right _ mem_cons_self)] at hc
  rw [mem_pointRangeTombstones, mem_rangeTombstones]
  grind

variable (events op) in
theorem replay_reads (k : K) (seqno : ℕ) : (replay events).get op k seqno =
    (replay events).held op k seqno ∧
      (replay events).scanValue op k seqno = (replay events).held op k seqno := by
  refine ⟨?_, scanValue_eq (opensInOrder replay_writtenInOrder.sources_tieFree)⟩
  rw [get_eq replay_writtenInOrder.layered]
  have hc : (replay events).Consulted k seqno :=
    consulted_of_memtables (by simp [replay, Version.tables]) k seqno
  exact Informed.readKey_eq hc pointRangeTombstones_subset fun e he => history_userKey he

variable [RawKey K] [LinearOrder V]
  {sources : List (List (ScanSinceEvent K V))}

omit [Inhabited V] in
theorem mergeSourceEvents_seqno (ho : ∀ source ∈ sources, KeysAscend source) :
    (mergeSourceEvents sources).Pairwise fun a b => a.seqno ≤ b.seqno := by
  apply pairwise_map.2
  apply (replayed_sorted ho).imp
  intro a b hle
  rcases Prod.Lex.toLex_le_toLex.1 hle with hlt | ⟨heq, -⟩
  · exact le_of_lt hlt
  · exact le_of_eq heq

omit [RawKey K] [LinearOrder V] [Inhabited V] in
theorem mem_rangeTombstones_changeSources :
    rt ∈ sv.rangeTombstones ↔ ∃ source ∈ sv.changeSources, rt ∈ source.2 := by
  rw [mem_rangeTombstones]
  simp only [changeSources, mem_append, mem_map, or_and_right, exists_or]
  constructor
  · rintro (⟨t, ht, hrt⟩ | ⟨m, hm, hrt⟩)
    · exact Or.inr ⟨_, ⟨t, ht, rfl⟩, (mem_insertionSort _).2 hrt⟩
    · exact Or.inl ⟨_, ⟨m, hm, rfl⟩,
        SortedSearch.mem_destutter_ne.2 ((mem_insertionSort _).2 hrt)⟩
  · rintro (⟨_, ⟨m, hm, rfl⟩, hrt⟩ | ⟨_, ⟨t, ht, rfl⟩, hrt⟩)
    · exact Or.inr ⟨m, hm, (mem_insertionSort _).1 (SortedSearch.mem_destutter_ne.1 hrt)⟩
    · exact Or.inl ⟨t, ht, (mem_insertionSort _).1 hrt⟩

omit [Inhabited V] in
theorem mem_mergeSourceEvents_deletion :
    ScanSinceEvent.ofRangeTombstone rt ∈ mergeSourceEvents sources ↔
      ∃ events ∈ sources, ScanSinceEvent.ofRangeTombstone rt ∈ events := by
  rw [mergeSourceEvents, ← replayed, mem_map]
  constructor
  · rintro ⟨x, hx, heq⟩
    obtain ⟨events, hevents, hpos⟩ := mem_placedEvents (mem_replayed.1 hx)
    rw [heq] at hpos
    exact ⟨events, mem_of_getElem? hevents, mem_of_getElem? hpos⟩
  · rintro ⟨events, hevents, hin⟩
    obtain ⟨i, hi⟩ := mem_iff_getElem?.1 hevents
    obtain ⟨p, hp⟩ := mem_iff_getElem?.1 hin
    have hplace : PlacedEvent.InPlace sources ⟨ScanSinceEvent.ofRangeTombstone rt, i, p⟩ :=
      ⟨events, hi, hp⟩
    obtain ⟨y, hy, heq, -⟩ := hplace.covered rfl
    exact ⟨y, mem_replayed.2 hy, heq⟩

omit [LinearOrder K] [Inhabited V] [RawKey K] [LinearOrder V] in
theorem EventsOf.mem_deletion {source : List (InternalValue K V) × List (RangeTombstone K)}
    {events : List (ScanSinceEvent K V)} (h : EventsOf source events) :
    ScanSinceEvent.ofRangeTombstone rt ∈ events ↔ rt ∈ source.2 := by
  obtain ⟨points, hpoints, rfl⟩ := h
  rw [mem_append, mem_map]
  constructor
  · rintro (hin | ⟨rt', hrt, heq⟩)
    · obtain ⟨⟨_, _, type, _⟩, -, hmap⟩ := Pointwise.exists_of_forall₂_mem hpoints hin
      cases type <;> cases hmap
    · rcases rt with ⟨_, _, _⟩
      rcases rt' with ⟨_, _, _⟩
      cases heq
      exact hrt
  · exact fun hrt => Or.inr ⟨rt, hrt, rfl⟩

theorem replay_rangeTombstones (hall : List.Forall₂ EventsOf sv.changeSources sources)
    (hc : rt.contains k = true) :
    rt ∈ (replay (mergeSourceEvents sources)).rangeTombstones ↔ rt ∈ sv.rangeTombstones := by
  have hlt : rt.start < rt.stop := by
    rw [RangeTombstone.contains_iff] at hc
    exact hc.1.trans_lt hc.2
  rw [mem_replay_rangeTombstones, mem_rangeTombstones_changeSources,
    mem_mergeSourceEvents_deletion]
  constructor
  · rintro ⟨⟨events, hevents, hin⟩, -⟩
    obtain ⟨source, hsource, heo⟩ := Pointwise.exists_of_forall₂_mem hall hevents
    exact ⟨source, hsource, heo.mem_deletion.1 hin⟩
  · rintro ⟨source, hsource, hrt⟩
    obtain ⟨events, hevents, heo⟩ := Pointwise.exists_of_forall₂_mem hall.flip hsource
    exact ⟨⟨events, hevents, EventsOf.mem_deletion heo |>.2 hrt⟩, hlt⟩

/-- The replica holds what the tree holds. -/
theorem replay_held (hall : List.Forall₂ EventsOf sv.changeSources sources) (k : K) (seqno : ℕ) :
    (replay (mergeSourceEvents sources)).held op k seqno = sv.held op k seqno := by
  have hordered : ∀ source ∈ sources, KeysAscend source ∧ NewestFirst source := by
    intro events hevents
    obtain ⟨source, hsource, heo⟩ := Pointwise.exists_of_forall₂_mem hall hevents
    exact heo.ordered hsource
  have hreplica : (replay (mergeSourceEvents sources)).history k seqno =
      (replayedHistory sources k seqno).map (·.event.toEntry) := by
    rw [replay_history]
    refine (foldl_applyEvent_entries
      (mergeSourceEvents_seqno fun s hs => (hordered s hs).1)).1.trans ?_
    rw [replayedHistory, map_reverse, mergeSourceEvents, ← replayed, filter_map,
      map_map]
    rfl
  have hwalk := (replayedHistory_thins k seqno).upTo_eq
    (placedHistory_sorted fun s hs => (hordered s hs).2)
    (replayedHistory_sorted fun s hs => (hordered s hs).1)
  have hreads : ∀ m : MvccStream K V,
      m.readKey ((replay (mergeSourceEvents sources)).history k seqno) =
        m.readKey (sv.history k seqno) := by
    intro m
    rw [hreplica, ← MvccStream.readKey_upTo, ← MvccStream.readKey_blank _ (sv.history k seqno),
      ← placedHistory_toEntry hall,
      ← MvccStream.readKey_upTo _ (List.map _ (placedHistory _ _ _)), Collapse.upTo_map,
      Collapse.upTo_map]
    simp only [ScanSinceEvent.toEntry_isMergeOperand]
    rw [hwalk]
  rw [held, held, ← hreads]
  apply MvccStream.readKey_congr
  intro e he
  apply isRtSuppressed_congr
  intro rt _ hc
  rw [history_userKey he] at hc
  exact replay_rangeTombstones hall hc

section Example

/-- Two runs of L0 have `k` under one sequence number. The newer run has a second table, so a
scan opens it after the older run. -/
def tiedRuns : SuperVersion (List Byte) ℕ where
  activeMemtable := Memtable.empty
  sealedMemtables := []
  version := ⟨[[[⟨2, ⟨[97], [97]⟩, [⟨[97], 4, .value, 7⟩], []⟩,
      ⟨3, ⟨[107], [107]⟩, [⟨[107], 5, .value, 1⟩], []⟩],
    [⟨1, ⟨[107], [107]⟩, [⟨[107], 5, .value, 2⟩], []⟩]]]⟩
  levelsInOrder := by decide
  tablesWF := by decide
  tablesSorted := by decide

theorem tiedRuns_inline : tiedRuns.Inline := by
  unfold Inline
  decide

/-- A batch at 7 with two operands for `k`, and a range delete that shares its sequence number with
the write of `a`. Three runs of L0 have `k` at 5, the last one with a second table. -/
def sharedSeqnos : SuperVersion (List Byte) ℕ where
  activeMemtable := ⟨[⟨[107], 7, .mergeOperand, 3⟩, ⟨[107], 7, .mergeOperand, 4⟩],
    [⟨[97], [98], 4⟩], by decide⟩
  sealedMemtables := []
  version := ⟨[[[⟨4, ⟨[107], [107]⟩, [⟨[107], 5, .value, 1⟩], []⟩],
    [⟨3, ⟨[107], [107]⟩, [⟨[107], 5, .value, 2⟩], []⟩],
    [⟨1, ⟨[97], [97]⟩, [⟨[97], 4, .value, 7⟩], []⟩,
      ⟨2, ⟨[107], [107]⟩, [⟨[107], 5, .value, 8⟩], []⟩]]]⟩
  levelsInOrder := by decide
  tablesWF := by decide
  tablesSorted := by decide

end Example

end SuperVersion

end Replica

end LsmTree
