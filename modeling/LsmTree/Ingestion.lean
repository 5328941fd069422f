import LsmTree.Flush
import LsmTree.Read.History
import LsmTree.Theory.Transition

/-! A bulk ingestion that finishes beside writers. Both kinds of tree flush by the index tree, so
without separating values. -/
namespace LsmTree

open List Option Nat

variable {K V : Type*} [LinearOrder K]

/-- What was given to an ingestion, in strictly ascending key order and under sequence number 0. -/
structure Ingestion (K V : Type*) [LinearOrder K] where
  items : List (InternalValue K V)
  ascending : items.Pairwise fun a b => a.userKey < b.userKey
  seqno_eq : ∀ e ∈ items, e.seqno = 0
  outputFull : ℕ → List (InternalValue K V) → Bool
  newTableIds : ℕ → ℕ
  /-- how the tree flushes -/
  flushOptions : FlushOptions K V

def Table.withGlobalSeqno (global : ℕ) (t : Table K V) : Table K V :=
  { t with entries := t.entries.map (·.withGlobalSeqno global) }

inductive FinishStage (K V : Type*) where
  | writing
  | rotated
  | flushing (tables : List (Table K V)) (captured : ℕ)
  | flushed
  | finished (globalSeqno : ℕ)

structure IngestingTree (K V : Type*) [LinearOrder K] where
  activeMemtable : Memtable K V
  /-- oldest first -/
  sealedMemtables : List (Memtable K V)
  version : Version (Table K V)
  /-- the shared counter -/
  seqno : ℕ
  /-- entries whose writers have drawn a sequence number and not inserted yet -/
  drawn : List (InternalValue K V)
  stage : FinishStage K V

inductive IngestionStep (K V : Type*) where
  | draw (key : K) (valueType : ValueType) (value : V)
  | insert (i : ℕ)
  | rotateMemtable
  | beginFlush
  | registerTables
  | install

namespace Ingestion

variable (ing : Ingestion K V)

def Ingests (k : K) : Prop := ∃ e ∈ ing.items, e.userKey = k

instance (k : K) : Decidable (ing.Ingests k) := inferInstanceAs (Decidable (∃ e ∈ ing.items, _))

variable [RawKey K] [Inhabited V]

/-- The tables of the ingestion's writer, as they are recovered with the global sequence number. -/
def tables (globalSeqno : ℕ) : List (Table K V) :=
  ((MultiWriter.new ing.newTableIds ing.outputFull List.length false []).writeAll ing.items).map
    (·.withGlobalSeqno globalSeqno)

/-- `self.tree.flush(&flush_lock, 0)` -/
def flushTables (sealed : List (Memtable K V)) : List (Table K V) :=
  ({ ing.flushOptions with seqnoThreshold := 0 } : FlushOptions K V).tables sealed

def step (s : IngestingTree K V) : IngestionStep K V → Option (IngestingTree K V)
  | .draw key valueType value =>
    some { s with seqno := s.seqno + 1, drawn := s.drawn ++ [⟨key, s.seqno, valueType, value⟩] }
  | .insert i =>
    s.drawn[i]?.map fun e =>
      { s with activeMemtable := s.activeMemtable.insert e, drawn := s.drawn.eraseIdx i }
  | .rotateMemtable =>
    match s.stage with
    | .writing =>
      if s.activeMemtable.isEmpty then some { s with stage := .rotated }
      else some { s with
        activeMemtable := Memtable.empty
        sealedMemtables := s.sealedMemtables ++ [s.activeMemtable]
        stage := .rotated }
    | _ => none
  | .beginFlush =>
    match s.stage with
    | .rotated =>
      if s.sealedMemtables = [] then some { s with stage := .flushed }
      else some { s with
        stage := .flushing (ing.flushTables s.sealedMemtables) s.sealedMemtables.length }
    | _ => none
  | .registerTables =>
    match s.stage with
    | .flushing tables captured => some { s with
        version := s.version.withNewL0Run tables
        sealedMemtables := s.sealedMemtables.drop captured
        -- the version that registers the tables draws a sequence number of its own
        seqno := s.seqno + 1
        stage := .flushed }
    | _ => none
  | .install =>
    match s.stage with
    | .flushed => some { s with
        version := s.version.withNewL0Run (ing.tables s.seqno)
        seqno := s.seqno + 1
        stage := .finished s.seqno }
    | _ => none

/-- A writer of an ingested key inserts before the rotation, or has drawn its sequence number after the
ingestion has drawn its own. -/
def InTurn (s : IngestingTree K V) : IngestionStep K V → Prop
  | .insert i => ∀ e ∈ s.drawn[i]?, ing.Ingests e.userKey →
      match s.stage with
      | .writing => True
      | .finished globalSeqno => globalSeqno < e.seqno
      | _ => False
  | _ => True

end Ingestion

structure Memtable.Below (bound : ℕ) (m : Memtable K V) : Prop where
  entries : ∀ e ∈ m.entries, e.seqno < bound
  rangeTombstones : ∀ rt ∈ m.rangeTombstones, rt.seqno < bound

structure Table.Below (bound : ℕ) (t : Table K V) : Prop where
  entries : ∀ e ∈ t.entries, e.seqno < bound
  rangeTombstones : ∀ rt ∈ t.rangeTombstones, rt.seqno < bound

theorem Memtable.Below.mono {b b' : ℕ} {m : Memtable K V} (h : m.Below b) (hb : b ≤ b') : m.Below b' :=
  ⟨fun e he => (h.entries e he).trans_le hb, fun rt hrt => (h.rangeTombstones rt hrt).trans_le hb⟩

omit [LinearOrder K] in
theorem Table.Below.mono {b b' : ℕ} {t : Table K V} (h : t.Below b) (hb : b ≤ b') : t.Below b' :=
  ⟨fun e he => (h.entries e he).trans_le hb, fun rt hrt => (h.rangeTombstones rt hrt).trans_le hb⟩

theorem Memtable.Below.insert {bound : ℕ} {m : Memtable K V} {e : InternalValue K V}
    (h : m.Below bound) (he : e.seqno < bound) : (m.insert e).Below bound := by
  refine Memtable.Below.mk (fun f hf => ?_) h.rangeTombstones
  rcases (mem_orderedInsert _).1 hf with rfl | hf
  · exact he
  · exact h.entries f hf

theorem Memtable.below_empty (bound : ℕ) : (Memtable.empty : Memtable K V).Below bound :=
  ⟨fun _ he => (nomatch he), fun _ hrt => (nomatch hrt)⟩

section Flush

variable [RawKey K] [Inhabited V]

theorem FlushOptions.tables_seqnos (o : FlushOptions K V) {sealed : List (Memtable K V)} :
    ∀ t ∈ o.tables sealed, ∀ x ∈ t.seqnos, x ∈ sealed.flatMap Memtable.seqnos := by
  intro t ht x hx
  have hmade := writeAll_madeOf ht
  have hrts : ∀ rt ∈ FlushOptions.rangeTombstones sealed,
      rt.seqno ∈ sealed.flatMap Memtable.seqnos := by
    intro rt hrt
    have hmem := (mem_insertionSort _).1 ((destutter_sublist _ _).subset hrt)
    obtain ⟨m, hm, hrt⟩ := mem_flatMap.1 hmem
    exact mem_flatMap.2 ⟨m, hm, mem_append_right _ (mem_map_of_mem hrt)⟩
  rcases mem_append.1 hx with hx | hx
  · obtain ⟨e, he, rfl⟩ := mem_map.1 hx
    rcases hmade.entries e he with hitem | ⟨-, rt, hrt, -, hseqno⟩
    · obtain ⟨f, hf, hyields⟩ := StreamConfig.run_yields [] _ e hitem
      obtain ⟨es, hes, hfe⟩ := KWayMerge.mem_mergeAll.1 hf
      obtain ⟨m, hm, rfl⟩ := mem_map.1 hes
      rw [hyields.seqno]
      exact mem_flatMap.2 ⟨m, hm, mem_append_left _ (mem_map_of_mem hfe)⟩
    · exact hseqno ▸ hrts rt hrt
  · obtain ⟨rt', hrt', rfl⟩ := mem_map.1 hx
    obtain ⟨rt, hrt, hseqno⟩ := hmade.rangeTombstones rt' hrt'
    exact hseqno ▸ hrts rt hrt

theorem FlushOptions.tables_below (o : FlushOptions K V) {sealed : List (Memtable K V)} {bound : ℕ}
    (h : ∀ m ∈ sealed, m.Below bound) : ∀ t ∈ o.tables sealed, t.Below bound := by
  intro t ht
  have hbound : ∀ x ∈ t.seqnos, x < bound := by
    intro x hx
    obtain ⟨m, hm, hx⟩ := mem_flatMap.1 (o.tables_seqnos t ht x hx)
    rcases mem_append.1 hx with hx | hx
    · obtain ⟨e, he, rfl⟩ := mem_map.1 hx
      exact (h m hm).entries e he
    · obtain ⟨rt, hrt, rfl⟩ := mem_map.1 hx
      exact (h m hm).rangeTombstones rt hrt
  exact ⟨fun e he => hbound _ (mem_append_left _ (mem_map_of_mem he)),
    fun rt hrt => hbound _ (mem_append_right _ (mem_map_of_mem hrt))⟩

end Flush

namespace Ingestion

variable (ing : Ingestion K V)

/-- The active memtable holds point entries alone, and none of an ingested key. -/
structure Quiet (m : Memtable K V) : Prop where
  rangeTombstones : m.rangeTombstones = []
  entries : ∀ e ∈ m.entries, ¬ ing.Ingests e.userKey

structure Finished (s : IngestingTree K V) (globalSeqno : ℕ) : Prop where
  lt : globalSeqno < s.seqno
  sealed : s.sealedMemtables = []
  activeTombstones : s.activeMemtable.rangeTombstones = []
  active : ∀ e ∈ s.activeMemtable.entries, ing.Ingests e.userKey → globalSeqno < e.seqno
  entries : ∀ t ∈ s.version.tables, ∀ e ∈ t.entries, e.seqno ≤ globalSeqno
  rangeTombstones : ∀ t ∈ s.version.tables, ∀ rt ∈ t.rangeTombstones, rt.seqno < globalSeqno
  ingested : ∀ e ∈ ing.items, ∃ t ∈ (s.version.level 0).flatten,
    e.withGlobalSeqno globalSeqno ∈ t.entries

def StageOk (s : IngestingTree K V) : FinishStage K V → Prop
  | .writing => True
  | .rotated => ing.Quiet s.activeMemtable
  | .flushing tables captured => ing.Quiet s.activeMemtable ∧ captured = s.sealedMemtables.length ∧
      ∀ t ∈ tables, t.Below s.seqno
  | .flushed => ing.Quiet s.activeMemtable ∧ s.sealedMemtables = []
  | .finished globalSeqno => ing.Finished s globalSeqno

structure Invariant (s : IngestingTree K V) : Prop where
  active : s.activeMemtable.Below s.seqno
  sealed : ∀ m ∈ s.sealedMemtables, m.Below s.seqno
  tables : ∀ t ∈ s.version.tables, t.Below s.seqno
  drawn : ∀ e ∈ s.drawn, e.seqno < s.seqno
  levels : s.version.levels ≠ []
  stage : ing.StageOk s s.stage

variable {ing} {s s' : IngestingTree K V}

theorem Invariant.draw (h : ing.Invariant s) (key : K) (valueType : ValueType) (value : V) :
    ing.Invariant
      { s with seqno := s.seqno + 1, drawn := s.drawn ++ [⟨key, s.seqno, valueType, value⟩] } where
  active := h.active.mono (le_succ _)
  sealed m hm := (h.sealed m hm).mono (le_succ _)
  tables t ht := (h.tables t ht).mono (le_succ _)
  drawn e he := by
    rcases mem_append.1 he with he | he
    · exact lt_succ_of_lt (h.drawn e he)
    · rw [mem_singleton.1 he]
      exact lt_succ_self _
  levels := h.levels
  stage := by
    have hstage := h.stage
    cases hs : s.stage with
    | writing => trivial
    | rotated =>
      rw [hs] at hstage
      exact hstage
    | flushing tables captured =>
      rw [hs] at hstage
      exact ⟨hstage.1, hstage.2.1, fun t ht => (hstage.2.2 t ht).mono (le_succ _)⟩
    | flushed =>
      rw [hs] at hstage
      exact hstage
    | finished globalSeqno =>
      rw [hs] at hstage
      exact { hstage with lt := lt_succ_of_lt hstage.lt }

theorem Quiet.insert {m : Memtable K V} {e : InternalValue K V} (h : ing.Quiet m)
    (he : ¬ ing.Ingests e.userKey) : ing.Quiet (m.insert e) := by
  refine ⟨h.rangeTombstones, fun f hf => ?_⟩
  rcases (mem_orderedInsert _).1 hf with rfl | hf
  · exact he
  · exact h.entries f hf

theorem quiet_empty : ing.Quiet Memtable.empty := ⟨rfl, fun _ he => nomatch he⟩

theorem Invariant.insert (h : ing.Invariant s) {i : ℕ} {e : InternalValue K V}
    (hi : s.drawn[i]? = some e) (hturn : ing.InTurn s (.insert i)) :
    ing.Invariant
      { s with activeMemtable := s.activeMemtable.insert e, drawn := s.drawn.eraseIdx i } where
  active := h.active.insert (h.drawn e (mem_of_getElem? hi))
  sealed := h.sealed
  tables := h.tables
  drawn f hf := h.drawn f (mem_of_mem_eraseIdx hf)
  levels := h.levels
  stage := by
    have hstage := h.stage
    have hturn := hturn e hi
    cases hs : s.stage with
    | writing => trivial
    | rotated =>
      rw [hs] at hstage hturn
      exact Quiet.insert hstage hturn
    | flushing tables captured =>
      rw [hs] at hstage hturn
      exact ⟨hstage.1.insert hturn, hstage.2⟩
    | flushed =>
      rw [hs] at hstage hturn
      exact ⟨hstage.1.insert hturn, hstage.2⟩
    | finished globalSeqno =>
      rw [hs] at hstage hturn
      refine { hstage with active := fun f hf hk => ?_ }
      rcases (mem_orderedInsert _).1 hf with rfl | hf
      · exact hturn hk
      · exact hstage.active f hf hk

theorem mem_withNewL0Run {v : Version (Table K V)} {run : List (Table K V)} (hl : v.levels ≠ []) :
    (∀ t ∈ (v.withNewL0Run run).tables, t ∈ run ∨ t ∈ v.tables) ∧
      (∀ t ∈ run, t ∈ ((v.withNewL0Run run).level 0).flatten) ∧
      (v.withNewL0Run run).levels ≠ [] := by
  refine ⟨fun t ht => mem_append.1 ((Version.withNewL0Run_perm hl).mem_iff.1 ht), ?_⟩
  obtain ⟨l0, rest, hlevels⟩ := exists_cons_of_ne_nil hl
  have hzero : (v.withNewL0Run run).levels = optimizeRuns (run.map ([·]) ++ l0) :: rest := by
    simp [Version.withNewL0Run, hlevels]
  constructor
  · intro t ht
    have hlevel : (v.withNewL0Run run).level 0 = optimizeRuns (run.map ([·]) ++ l0) := by
      simp [Version.level, hzero]
    rw [hlevel, (optimizeRuns_perm _).mem_iff, mem_flatten]
    exact ⟨[t], mem_append_left _ (mem_map_of_mem ht), mem_singleton_self t⟩
  · rw [hzero]
    exact cons_ne_nil _ _

variable [RawKey K] [Inhabited V]

theorem tables_spec (ing : Ingestion K V) {globalSeqno : ℕ} :
    (∀ t ∈ ing.tables globalSeqno, t.rangeTombstones = [] ∧ ∀ e ∈ t.entries, e.seqno = globalSeqno) ∧
      ∀ e ∈ ing.items, ∃ t ∈ ing.tables globalSeqno, e.withGlobalSeqno globalSeqno ∈ t.entries := by
  constructor
  · intro t ht
    obtain ⟨t', ht', rfl⟩ := mem_map.1 ht
    have hmade := writeAll_madeOf ht'
    constructor
    · apply eq_nil_iff_forall_not_mem.2
      intro rt hrt
      obtain ⟨_, hnil, -⟩ := hmade.rangeTombstones rt hrt
      cases hnil
    · intro e he
      obtain ⟨f, hf, rfl⟩ := mem_map.1 he
      rcases hmade.entries f hf with hitem | ⟨-, _, hnil, -⟩
      · show f.seqno + globalSeqno = globalSeqno
        rw [ing.seqno_eq f hitem, Nat.zero_add]
      · cases hnil
  · intro e he
    obtain ⟨t, ht, het⟩ := exists_mem_writeAll
      he
    exact ⟨_, mem_map_of_mem ht, mem_map_of_mem het⟩

theorem Invariant.rotateMemtable (h : ing.Invariant s) (hstep : ing.step s .rotateMemtable = some s') :
    ing.Invariant s' := by
  simp only [step] at hstep
  split at hstep
  case h_2 => cases hstep
  case h_1 =>
    by_cases hempty : s.activeMemtable.isEmpty = true
    · rw [if_pos hempty] at hstep
      cases hstep
      refine { h with stage := ?_ }
      simp only [Memtable.isEmpty, Bool.and_eq_true, List.isEmpty_iff] at hempty
      exact ⟨hempty.2, by simp [hempty.1]⟩
    · rw [if_neg hempty] at hstep
      cases hstep
      refine { h with active := Memtable.below_empty _, sealed := fun m hm => ?_, stage := quiet_empty }
      rcases mem_append.1 hm with hm | hm
      · exact h.sealed m hm
      · rw [mem_singleton.1 hm]
        exact h.active

theorem Invariant.beginFlush (h : ing.Invariant s) (hstep : ing.step s .beginFlush = some s') :
    ing.Invariant s' := by
  have hstage := h.stage
  simp only [step] at hstep
  split at hstep
  case h_2 => cases hstep
  case h_1 hs =>
    rw [hs] at hstage
    by_cases hnone : s.sealedMemtables = []
    · rw [if_pos hnone] at hstep
      cases hstep
      exact { h with stage := ⟨hstage, hnone⟩ }
    · rw [if_neg hnone] at hstep
      cases hstep
      exact { h with stage := ⟨hstage, rfl, FlushOptions.tables_below _ h.sealed⟩ }

theorem Invariant.registerTables (h : ing.Invariant s)
    (hstep : ing.step s .registerTables = some s') : ing.Invariant s' := by
  have hstage := h.stage
  simp only [step] at hstep
  split at hstep
  case h_2 => cases hstep
  case h_1 tables captured hs =>
    rw [hs] at hstage
    obtain ⟨hquiet, rfl, hbelow⟩ := hstage
    cases hstep
    obtain ⟨hmem, -, hlevels⟩ := mem_withNewL0Run h.levels
    constructor
    · exact h.active.mono (le_succ _)
    · intro m hm
      exact (h.sealed m (mem_of_mem_drop hm)).mono (le_succ _)
    · intro t ht
      rcases hmem t ht with ht | ht
      · exact (hbelow t ht).mono (le_succ _)
      · exact (h.tables t ht).mono (le_succ _)
    · exact fun e he => lt_succ_of_lt (h.drawn e he)
    · exact hlevels
    · exact ⟨hquiet, drop_length⟩

theorem Invariant.install (h : ing.Invariant s) (hstep : ing.step s .install = some s') :
    ing.Invariant s' := by
  have hstage := h.stage
  simp only [step] at hstep
  split at hstep
  case h_2 => cases hstep
  case h_1 hs =>
    rw [hs] at hstage
    obtain ⟨hquiet, hsealed⟩ := hstage
    cases hstep
    obtain ⟨hmem, hlevel0, hlevels⟩ := mem_withNewL0Run h.levels
    obtain ⟨htables, hitems⟩ := ing.tables_spec
    have hentries : ∀ t ∈ (s.version.withNewL0Run (ing.tables s.seqno)).tables,
        (∀ e ∈ t.entries, e.seqno ≤ s.seqno) ∧ ∀ rt ∈ t.rangeTombstones, rt.seqno < s.seqno := by
      intro t ht
      rcases hmem t ht with ht | ht
      · obtain ⟨hrts, hseqno⟩ := htables t ht
        exact ⟨fun e he => (hseqno e he).le, by simp [hrts]⟩
      · exact ⟨fun e he => ((h.tables t ht).entries e he).le, (h.tables t ht).rangeTombstones⟩
    constructor
    · exact h.active.mono (le_succ _)
    · exact fun m hm => (h.sealed m hm).mono (le_succ _)
    · intro t ht
      obtain ⟨he, hrt⟩ := hentries t ht
      exact ⟨fun e hmem => lt_succ_of_le (he e hmem), fun rt hmem => lt_succ_of_lt (hrt rt hmem)⟩
    · exact fun e he => lt_succ_of_lt (h.drawn e he)
    · exact hlevels
    · refine ⟨lt_succ_self _, hsealed, hquiet.rangeTombstones, ?_, fun t ht => (hentries t ht).1,
        fun t ht => (hentries t ht).2, ?_⟩
      · exact fun e he hk => absurd hk (hquiet.entries e he)
      · intro e he
        obtain ⟨t, ht, het⟩ := hitems e he
        exact ⟨t, hlevel0 t ht, het⟩

theorem Invariant.step {a : IngestionStep K V} (h : ing.Invariant s) (hturn : ing.InTurn s a)
    (hstep : ing.step s a = some s') : ing.Invariant s' := by
  cases a with
  | draw key valueType value =>
    cases hstep
    exact h.draw key valueType value
  | insert i =>
    obtain ⟨e, hi, rfl⟩ := map_eq_some_iff.1 hstep
    exact h.insert hi hturn
  | rotateMemtable => exact h.rotateMemtable hstep
  | beginFlush => exact h.beginFlush hstep
  | registerTables => exact h.registerTables hstep
  | install => exact h.install hstep

section Reads

variable {sv : SuperVersion K V} {k : K} {R globalSeqno : ℕ}

omit [RawKey K] [Inhabited V]

theorem Finished.not_suppressed (h : ing.Finished s globalSeqno)
    (ha : sv.activeMemtable = s.activeMemtable) (hs : sv.sealedMemtables = s.sealedMemtables)
    (hv : sv.version = s.version) {seqno : ℕ} (hle : globalSeqno ≤ seqno) :
    sv.isSuppressedByRangeTombstones k R seqno = false := by
  unfold SuperVersion.isSuppressedByRangeTombstones SuperVersion.memtablesNewestFirst
  rw [ha, hs, hv, h.sealed]
  apply Bool.or_eq_false_iff.2
  constructor
  · simp [Memtable.isKeySuppressedByRangeTombstone, h.activeTombstones]
  · apply any_eq_false.2
    intro t ht hany
    obtain ⟨rt, hrt, hsup⟩ := any_eq_true.1 hany
    have hmem : rt ∈ t.rangeTombstones :=
      (mem_insertionSort _).1 ((takeWhile_sublist _).subset hrt)
    have hlt := h.rangeTombstones t (mem_filter.1 ht).1 rt hmem
    have hnew := (RangeTombstone.shouldSuppress_iff.1 hsup).2.2
    omega

theorem Finished.history_cases (h : ing.Finished s globalSeqno)
    (ha : sv.activeMemtable = s.activeMemtable) (hs : sv.sealedMemtables = s.sealedMemtables)
    (hv : sv.version = s.version) {f : InternalValue K V} (hf : f ∈ sv.history k R) :
    f ∈ s.activeMemtable.entries ∨ f.seqno ≤ globalSeqno := by
  obtain ⟨⟨source, hsource, hmem⟩, -⟩ := SuperVersion.mem_history.1 hf
  rcases mem_append.1 hsource with hsource | hsource
  · obtain ⟨m, hm, rfl⟩ := mem_map.1 hsource
    rw [SuperVersion.memtablesNewestFirst, ha, hs, h.sealed, reverse_nil,
      mem_singleton] at hm
    exact Or.inl (hm ▸ hmem)
  · obtain ⟨run, hrun, rfl⟩ := mem_map.1 hsource
    obtain ⟨t, ht, het⟩ := mem_flatMap.1 hmem
    rw [hv] at hrun
    exact Or.inr (h.entries t (mem_flatten.2 ⟨run, hrun, ht⟩) f het)

theorem Finished.findInL0 (h : ing.Finished s globalSeqno) (hv : sv.version = s.version)
    (hk : ing.Ingests k) (hR : globalSeqno < R) {l0 : List (List (Table K V))}
    {deeper : List (List (List (Table K V)))} (hlevels : s.version.levels = l0 :: deeper) :
    ∃ e, findInL0 (fun t : Table K V => t.get k R) k R none l0 = some e ∧ e.seqno = globalSeqno ∧
      e ∈ sv.history k R := by
  have hl0 : l0 ∈ sv.version.levels := by
    rw [hv, hlevels]
    exact mem_cons_self
  have hlevel : s.version.level 0 = l0 := by simp [Version.level, hlevels]
  have hhit : ∀ {run : List (Table K V)} {e : InternalValue K V}, run ∈ l0 →
      ((getForKey run k).bind fun t => t.get k R) = some e →
      ∃ t ∈ run, e ∈ t.entries ∧ e.matchesKey k R = true := by
    intro run e hrun he
    obtain ⟨t, ht, hget⟩ := bind_eq_some_iff.1 he
    exact ⟨t, ((SuperVersion.getForKey_run hl0 hrun).1 ht).1, mem_of_find?_eq_some hget,
      find?_some hget⟩
  -- the ingested entry is a hit in its run
  obtain ⟨item, hitem, hkey⟩ := hk
  obtain ⟨t, ht, het⟩ := h.ingested item hitem
  rw [hlevel] at ht
  obtain ⟨run, hrun, htrun⟩ := mem_flatten.1 ht
  have htables : t ∈ sv.version.tables := SuperVersion.mem_tables hl0 hrun htrun
  have hmatch : (item.withGlobalSeqno globalSeqno).matchesKey k R = true := by
    refine InternalValue.matchesKey_iff.2 ⟨hkey, lt_of_le_of_lt ?_ hR⟩
    exact h.entries t (hv ▸ htables) _ het
  have hcover : getForKey run k = some t := by
    have hcontains := SuperVersion.containsKey_of_mem htables het
    exact (SuperVersion.getForKey_run hl0 hrun).2 ⟨htrun, hkey ▸ hcontains⟩
  obtain ⟨best, hbest⟩ : ∃ best, t.get k R = some best := by
    refine isSome_iff_exists.1 (find?_isSome.2 ⟨_, het, hmatch⟩)
  have hbestge := seqno_le_of_find? (sv.tablesSorted t htables) hbest het hmatch
  have hrunhit : ((getForKey run k).bind fun t => t.get k R) = some best := by
    rw [hcover, bind_some, hbest]
  cases hfind : LsmTree.findInL0 (fun t : Table K V => t.get k R) k R none l0 with
  | none =>
    have := (findInL0_none hfind).2 run hrun
    rw [hrunhit] at this
    cases this
  | some e =>
    obtain ⟨hsrc, -, hmax⟩ := findInL0_some (fun run' hrun' item' hitem' => by
      obtain ⟨_, _, _, hm⟩ := hhit hrun' hitem'
      exact (InternalValue.matchesKey_iff.1 hm).2) hfind
    obtain ⟨pre, run', post, hruns, he, -⟩ := hsrc.resolve_left (by simp)
    have hrun' : run' ∈ l0 := by simp [hruns]
    obtain ⟨t', ht', het', hm'⟩ := hhit hrun' he
    have hge := hbestge.trans (hmax run hrun best hrunhit)
    have hle := h.entries t' (hv ▸ SuperVersion.mem_tables hl0 hrun' ht') e het'
    refine ⟨e, rfl, le_antisymm hle (le_trans (le_add_left _ _) hge), ?_⟩
    refine SuperVersion.mem_history.2 ⟨⟨runEntries run', ?_, mem_flatMap.2 ⟨t', ht', het'⟩⟩, hm'⟩
    exact mem_append_right _ (mem_map_of_mem (mem_flatten.2 ⟨l0, hl0, hrun'⟩))

theorem Finished.getValue (h : ing.Finished s globalSeqno) (hinv : ing.Invariant s)
    (ha : sv.activeMemtable = s.activeMemtable) (hs : sv.sealedMemtables = s.sealedMemtables)
    (hv : sv.version = s.version) (hk : ing.Ingests k) (hR : s.seqno ≤ R) :
    ∃ e ∈ sv.history k R, (∀ f ∈ sv.history k R, f.seqno ≤ e.seqno) ∧
      sv.getValue k R = if e.isTombstone then none else some e := by
  have hmemtables : sv.memtablesNewestFirst = [s.activeMemtable] := by
    rw [SuperVersion.memtablesNewestFirst, ha, hs, h.sealed, reverse_nil]
  unfold SuperVersion.getValue
  rw [hmemtables, findSome?_singleton]
  cases hget : s.activeMemtable.get k R with
  | some e =>
    have hmem : e ∈ s.activeMemtable.entries := mem_of_find?_eq_some hget
    have hm := find?_some hget
    have hnew : globalSeqno < e.seqno :=
      h.active e hmem ((InternalValue.matchesKey_iff.1 hm).1.symm ▸ hk)
    refine ⟨e, ?_, fun f hf => ?_, ?_⟩
    · refine SuperVersion.mem_history.2 ⟨⟨s.activeMemtable.entries, ?_, hmem⟩, hm⟩
      rw [SuperVersion.sources, hmemtables]
      exact mem_append_left _ mem_cons_self
    · rcases h.history_cases ha hs hv hf with hactive | hle
      · exact seqno_le_of_find? s.activeMemtable.sorted hget hactive (SuperVersion.mem_history.1 hf).2
      · omega
    · simp only [h.not_suppressed ha hs hv hnew.le]
      rfl
  | none =>
    obtain ⟨l0, deeper, hlevels⟩ := exists_cons_of_ne_nil hinv.levels
    obtain ⟨e, hfind, hseqno, hhist⟩ := h.findInL0 hv hk (h.lt.trans_le hR) hlevels
    refine ⟨e, hhist, fun f hf => ?_, ?_⟩
    · rcases h.history_cases ha hs hv hf with hactive | hle
      · have hno := find?_eq_none.1 hget f hactive
        exact absurd (SuperVersion.mem_history.1 hf).2 hno
      · exact hle.trans hseqno.ge
    · have htables : findInTables (fun t : Table K V => t.get k R) k R sv.version =
          if e.isTombstone then none else some e := by
        rw [findInTables, hv, hlevels, findInLevels, hfind, some_or, filter_some]
        cases e.isTombstone <;> rfl
      rw [htables]
      cases ht : e.isTombstone with
      | true => rfl
      | false => simp [h.not_suppressed ha hs hv hseqno.ge]

end Reads

/-- In every run in which each writer of an ingested key inserts before the rotation, or draws its
sequence number after the ingestion has drawn its own: once `finish` has installed the tables, a point
read of an ingested key above all sequence numbers gives the newest entry of the key, or nothing if
that is a tombstone. -/
theorem finished_getValue (ing : Ingestion K V) {s s' : IngestingTree K V} {as : List (IngestionStep K V)}
    (hstart : s.stage = .writing) (hactive : s.activeMemtable.Below s.seqno)
    (hsealed : ∀ m ∈ s.sealedMemtables, m.Below s.seqno)
    (htables : ∀ t ∈ s.version.tables, t.Below s.seqno) (hdrawn : ∀ e ∈ s.drawn, e.seqno < s.seqno)
    (hlevels : s.version.levels ≠ []) (hrun : Transition.Run ing.step ing.InTurn s as s')
    {globalSeqno : ℕ} (hend : s'.stage = .finished globalSeqno) {sv : SuperVersion K V}
    (ha : sv.activeMemtable = s'.activeMemtable) (hs : sv.sealedMemtables = s'.sealedMemtables)
    (hv : sv.version = s'.version) {k : K} (hk : ing.Ingests k) {R : ℕ} (hR : s'.seqno ≤ R) :
    ∃ e ∈ sv.history k R, (∀ f ∈ sv.history k R, f.seqno ≤ e.seqno) ∧
      sv.getValue k R = if e.isTombstone then none else some e := by
  have hinv : ing.Invariant s := ⟨hactive, hsealed, htables, hdrawn, hlevels, by rw [hstart]; trivial⟩
  have hinv' : ing.Invariant s' :=
    hrun.invariant (fun _ _ _ hinv hturn hstep => hinv.step hturn hstep) hinv
  have hfin := hinv'.stage
  rw [hend] at hfin
  exact Finished.getValue hfin hinv' ha hs hv hk hR

section Example

open Transition

/-- The key `k`, written by a writer as 10 or 30 and ingested as 20. -/
def entryOf (seqno value : ℕ) : InternalValue (List Byte) ℕ := ⟨[107], seqno, .value, value⟩

def ingestTwenty : Ingestion (List Byte) ℕ where
  items := [entryOf 0 20]
  ascending := pairwise_singleton _ _
  seqno_eq := by simp [entryOf]
  outputFull _ _ := false
  newTableIds n := 10 + n
  flushOptions := ⟨0, none, fun _ _ => false, id, List.length⟩

def emptyTree : IngestingTree (List Byte) ℕ := ⟨Memtable.empty, [], ⟨[[]]⟩, 1, [], .writing⟩

def tableOf (id : ℕ) (e : InternalValue (List Byte) ℕ) : Table (List Byte) ℕ :=
  ⟨id, ⟨e.userKey, e.userKey⟩, [e], []⟩

theorem exists_of_mem_tables {l0 : List (ℕ × InternalValue (List Byte) ℕ)} {t : Table (List Byte) ℕ}
    (ht : t ∈ Version.tables ⟨[l0.map fun x => [tableOf x.1 x.2]]⟩) : ∃ id e, t = tableOf id e := by
  obtain ⟨run, hrun, ht⟩ := mem_flatten.1 ht
  rw [flatten_singleton] at hrun
  obtain ⟨x, -, rfl⟩ := mem_map.1 hrun
  exact ⟨x.1, x.2, mem_singleton.1 ht⟩

def viewOf (active : InternalValue (List Byte) ℕ) (l0 : List (ℕ × InternalValue (List Byte) ℕ)) :
    SuperVersion (List Byte) ℕ where
  activeMemtable := ⟨[active], [], pairwise_singleton _ _⟩
  sealedMemtables := []
  version := ⟨[l0.map fun x => [tableOf x.1 x.2]]⟩
  levelsInOrder := by
    constructor
    · rintro (_ | i) hi
      · cases hi
      · simp [Version.level]
    · rintro (_ | i) run hrun
      · obtain ⟨x, -, rfl⟩ := mem_map.1 hrun
        exact pairwise_singleton _ _
      · simp [Version.level] at hrun
  tablesWF t ht := by
    obtain ⟨id, e, rfl⟩ := exists_of_mem_tables ht
    refine ⟨le_rfl, pairwise_singleton _ _, fun f hf => ?_⟩
    rw [mem_singleton.1 hf]
    exact ⟨le_rfl, le_rfl⟩
  tablesSorted t ht := by
    obtain ⟨id, e, rfl⟩ := exists_of_mem_tables ht
    exact pairwise_singleton _ _

def overtakenView : SuperVersion (List Byte) ℕ := viewOf (entryOf 1 10) [(10, entryOf 2 20)]

def inTurnView : SuperVersion (List Byte) ℕ :=
  viewOf (entryOf 4 30) [(10, entryOf 3 20), (0, entryOf 1 10)]

/-- A writer draws 1, the ingestion draws 2 and installs, and the writer inserts: the older entry is
read. -/
theorem overtaken_write_read : ∃ s, exec ingestTwenty.step emptyTree
      [.draw [107] .value 10, .rotateMemtable, .beginFlush, .install, .insert 0] = some s ∧
    s.stage = .finished 2 ∧ s.drawn = [] ∧ s.seqno = 3 ∧
    s.activeMemtable = overtakenView.activeMemtable ∧
    s.sealedMemtables = overtakenView.sealedMemtables ∧ s.version = overtakenView.version ∧
    overtakenView.getValue [107] 3 = some (entryOf 1 10) ∧
    overtakenView.history [107] 3 = [entryOf 2 20, entryOf 1 10] :=
  ⟨_, rfl, rfl, rfl, rfl, rfl, rfl, rfl, by decide, by decide⟩

/-- One write before the rotation, one drawn after the ingestion. -/
theorem writes_in_turn_read : ∃ e ∈ inTurnView.history [107] 5,
    (∀ f ∈ inTurnView.history [107] 5, f.seqno ≤ e.seqno) ∧
    inTurnView.getValue [107] 5 = if e.isTombstone then none else some e := by
  have hrun : Run ingestTwenty.step ingestTwenty.InTurn emptyTree
      [.draw [107] .value 10, .insert 0, .rotateMemtable, .beginFlush, .registerTables, .install,
        .draw [107] .value 30, .insert 0]
      ⟨⟨[entryOf 4 30], [], pairwise_singleton _ _⟩, [],
        ⟨[[[tableOf 10 (entryOf 3 20)], [tableOf 0 (entryOf 1 10)]]]⟩, 5, [], .finished 3⟩ := by
    refine .cons rfl trivial (.cons rfl ?_ (.cons rfl trivial (.cons rfl trivial (.cons rfl trivial
      (.cons rfl trivial (.cons rfl trivial (.cons rfl ?_ (.nil _))))))))
    · exact fun _ _ _ => trivial
    · rintro e ⟨⟩ -
      exact lt_succ_self 3
  exact finished_getValue ingestTwenty rfl (Memtable.below_empty _) (by simp [emptyTree])
    (by simp [emptyTree, Version.tables]) (by simp [emptyTree]) (by simp [emptyTree]) hrun rfl rfl rfl
    rfl ⟨_, mem_singleton_self _, rfl⟩ le_rfl

end Example

end Ingestion

end LsmTree
