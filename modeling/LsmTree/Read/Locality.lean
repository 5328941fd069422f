import LsmTree.Read.PointScan

/-! What the reads of a key depend on. -/
namespace LsmTree.SuperVersion

open List Option

variable {K V : Type*} [LinearOrder K] {sv sv' : SuperVersion K V} {k : K} {seqno : ℕ}
  {op : Option (MergeOperator K V)}

def WrittenOnce (sv : SuperVersion K V) : Prop :=
  (sv.memtablesNewestFirst.map (·.entries) ++ sv.version.tables.map (·.entries)).Pairwise TieFree

/-- The same memtables, and level by level the same tables over `k`. -/
structure AgreeAt (k : K) (sv sv' : SuperVersion K V) : Prop where
  activeMemtable : sv.activeMemtable = sv'.activeMemtable
  sealedMemtables : sv.sealedMemtables = sv'.sealedMemtables
  depth : sv.version.levels.length = sv'.version.levels.length
  tables : ∀ i t, t.keyRange.containsKey k = true →
    (t ∈ (sv.version.level i).flatten ↔ t ∈ (sv'.version.level i).flatten)

section WrittenOnce

theorem WrittenOnce.sources_tieFree (h : sv.WrittenOnce) : sv.sources.Pairwise TieFree := by
  obtain ⟨hmem, htables, hcross⟩ := pairwise_append.1 h
  rw [Version.tables, pairwise_map, pairwise_flatten] at htables
  refine pairwise_append.2 ⟨hmem, ?_, ?_⟩
  · rw [pairwise_map]
    apply htables.2.imp
    intro a b hab e he f hf
    obtain ⟨t, ht, het⟩ := mem_flatMap.1 he
    obtain ⟨t', ht', hft⟩ := mem_flatMap.1 hf
    exact hab t ht t' ht' e het f hft
  · intro a ha b hb e he f hf
    obtain ⟨run, hrun, rfl⟩ := mem_map.1 hb
    obtain ⟨t, ht, hft⟩ := mem_flatMap.1 hf
    exact hcross a ha _ (mem_map_of_mem (mem_flatten.2 ⟨run, hrun, ht⟩)) e he f hft

theorem WrittenOnce.table_unique (h : sv.WrittenOnce) {t t' : Table K V}
    (ht : t ∈ sv.version.tables) (ht' : t' ∈ sv.version.tables) {e f : InternalValue K V}
    (he : e ∈ t.entries) (hf : f ∈ t'.entries) (hkey : e.userKey = f.userKey)
    (hseq : e.seqno = f.seqno) : t = t' := by
  by_contra hne
  have hpair := (pairwise_append.1 h).2.1
  rw [pairwise_map] at hpair
  have hsymm : Std.Symm fun a b : Table K V => TieFree a.entries b.entries :=
    ⟨fun _ _ => TieFree.symm⟩
  exact hpair.forall ht ht' hne e he f hf hkey hseq

end WrittenOnce

section History

variable {e : InternalValue K V}

theorem mem_sources : (∃ source ∈ sv.sources, e ∈ source) ↔
    (∃ m ∈ sv.memtablesNewestFirst, e ∈ m.entries) ∨ ∃ t ∈ sv.version.tables, e ∈ t.entries := by
  constructor
  · rintro ⟨source, hs, he⟩
    rcases mem_append.1 hs with hs | hs
    · obtain ⟨m, hm, rfl⟩ := mem_map.1 hs
      exact Or.inl ⟨m, hm, he⟩
    · obtain ⟨run, hrun, rfl⟩ := mem_map.1 hs
      obtain ⟨t, ht, het⟩ := mem_flatMap.1 he
      exact Or.inr ⟨t, mem_flatten.2 ⟨run, hrun, ht⟩, het⟩
  · rintro (⟨m, hm, he⟩ | ⟨t, ht, he⟩)
    · exact ⟨_, mem_append_left _ (mem_map_of_mem hm), he⟩
    · obtain ⟨run, hrun, htr⟩ := mem_flatten.1 ht
      exact ⟨_, mem_append_right _ (mem_map_of_mem hrun),
        mem_flatMap.2 ⟨t, htr, he⟩⟩

theorem WrittenOnce.filter_history (h : sv.WrittenOnce) {t : Table K V}
    (ht : t ∈ sv.version.tables) (he : e ∈ t.entries) (hm : e.matchesKey k seqno = true) :
    (sv.history k seqno).filter (fun f => f.seqno = e.seqno) =
      (t.entries.filter (InternalValue.matchesKey k seqno)).filter fun f => f.seqno = e.seqno := by
  have hc := containsKey_of_mem ht he
  rw [(InternalValue.matchesKey_iff.1 hm).1] at hc
  obtain ⟨run, hrun, htr⟩ := mem_flatten.1 ht
  obtain ⟨level, hl, hr⟩ := mem_flatten.1 hrun
  have hfilter := SuperVersion.filter_history h.sources_tieFree
    (mem_append_right _ (mem_map_of_mem hrun)) (mem_flatMap.2 ⟨t, htr, he⟩) hm
  rw [hfilter, runEntries_filter hl hr, (getForKey_run hl hr).2 ⟨htr, hc⟩]
  rfl

end History

namespace AgreeAt

theorem memtables (h : AgreeAt k sv sv') :
    sv.memtablesNewestFirst = sv'.memtablesNewestFirst := by
  rw [memtablesNewestFirst, memtablesNewestFirst, h.activeMemtable, h.sealedMemtables]

theorem symm (h : AgreeAt k sv sv') : AgreeAt k sv' sv where
  activeMemtable := h.activeMemtable.symm
  sealedMemtables := h.sealedMemtables.symm
  depth := h.depth.symm
  tables i t hc := (h.tables i t hc).symm

theorem level (h : AgreeAt k sv sv') {i : ℕ} {level : List (List (Table K V))}
    (hl : sv.version.levels[i]? = some level) : ∃ level', sv'.version.levels[i]? = some level' ∧
      ∀ t : Table K V, t.keyRange.containsKey k = true →
        (t ∈ level.flatten ↔ t ∈ level'.flatten) := by
  have hi : i < sv'.version.levels.length := by
    rw [← h.depth]
    exact (List.getElem?_eq_some_iff.1 hl).1
  refine ⟨_, List.getElem?_eq_getElem hi, fun t hc => ?_⟩
  have := h.tables i t hc
  simpa [Version.level, hl, hi] using this

theorem mem_tables_iff (h : AgreeAt k sv sv') {t : Table K V}
    (hc : t.keyRange.containsKey k = true) :
    t ∈ sv.version.tables ↔ t ∈ sv'.version.tables := by
  have forth : ∀ {sv sv' : SuperVersion K V}, AgreeAt k sv sv' → t ∈ sv.version.tables →
      t ∈ sv'.version.tables := by
    intro sv sv' h ht
    obtain ⟨i, level, hl, hlt⟩ := Version.mem_tables.1 ht
    obtain ⟨level', hl', htables⟩ := h.level hl
    exact Version.mem_tables.2 ⟨i, level', hl', (htables t hc).1 hlt⟩
  exact ⟨forth h, forth h.symm⟩

section History

theorem mem_history_iff (h : AgreeAt k sv sv') {e : InternalValue K V} :
    e ∈ sv.history k seqno ↔ e ∈ sv'.history k seqno := by
  rw [mem_history, mem_history, mem_sources, mem_sources, h.memtables]
  apply and_congr_left
  intro hm
  have hkey := (InternalValue.matchesKey_iff.1 hm).1
  apply or_congr_right
  constructor
  · rintro ⟨t, ht, he⟩
    have hc := containsKey_of_mem ht he
    rw [hkey] at hc
    exact ⟨t, (h.mem_tables_iff hc).1 ht, he⟩
  · rintro ⟨t, ht, he⟩
    have hc := containsKey_of_mem ht he
    rw [hkey] at hc
    exact ⟨t, (h.mem_tables_iff hc).2 ht, he⟩

theorem history_eq (h : AgreeAt k sv sv') (honce : sv.WrittenOnce) (honce' : sv'.WrittenOnce) :
    sv.history k seqno = sv'.history k seqno := by
  refine SortedSearch.eq_of_filter_key (f := fun e => OrderDual.toDual e.seqno)
    history_newestFirst history_newestFirst fun s => ?_
  by_cases hex : ∃ e ∈ sv.history k seqno, e.seqno = OrderDual.ofDual s
  · obtain ⟨e, he, rfl⟩ := hex
    obtain ⟨hsrc, hm⟩ := mem_history.1 he
    change (sv.history k seqno).filter (fun f => f.seqno = e.seqno) =
      (sv'.history k seqno).filter fun f => f.seqno = e.seqno
    rcases mem_sources.1 hsrc with ⟨m, hmem, hem⟩ | ⟨t, ht, het⟩
    · have hin : m.entries ∈ sv.sources := mem_append_left _ (mem_map_of_mem hmem)
      have hin' : m.entries ∈ sv'.sources :=
        mem_append_left _ (mem_map_of_mem (h.memtables ▸ hmem))
      rw [SuperVersion.filter_history honce.sources_tieFree hin hem hm,
        SuperVersion.filter_history honce'.sources_tieFree hin' hem hm]
    · have hc := containsKey_of_mem ht het
      rw [(InternalValue.matchesKey_iff.1 hm).1] at hc
      rw [honce.filter_history ht het hm,
        honce'.filter_history ((h.mem_tables_iff hc).1 ht) het hm]
  · have hnone : ∀ e ∈ sv.history k seqno, ¬ decide (OrderDual.toDual e.seqno = s) = true :=
      fun e he hs => hex ⟨e, he, of_decide_eq_true hs⟩
    rw [filter_eq_nil_iff.2 hnone,
      filter_eq_nil_iff.2 fun e he => hnone e (h.mem_history_iff.2 he)]

end History

section PointRead

variable {i : ℕ} {level : List (List (Table K V))}

theorem findInCoveringRun_eq (hi : 1 ≤ i) (hl : sv.version.levels[i]? = some level) {t : Table K V}
    (ht : t ∈ level.flatten) (hc : t.keyRange.containsKey k = true) :
    findInCoveringRun (fun t : Table K V => t.get k seqno) k level = t.get k seqno := by
  have hlm : level ∈ sv.version.levels := mem_of_getElem? hl
  obtain ⟨run, hr, htr⟩ := mem_flatten.1 ht
  cases hfind : findInCoveringRun (fun t : Table K V => t.get k seqno) k level with
  | some e =>
    obtain ⟨run', hr', t', hg, he⟩ := findInCoveringRun_some hfind
    obtain ⟨ht', hc'⟩ := (getForKey_run hlm hr').1 hg
    rw [deeper_unique hi hl hr htr hc hr' ht' hc']
    exact he.symm
  | none =>
    rcases findInCoveringRun_none hfind with hall | ⟨run', hr', t', hg, hmiss⟩
    · have hnone := hall run hr
      rw [(getForKey_run hlm hr).2 ⟨htr, hc⟩] at hnone
      cases hnone
    · obtain ⟨ht', hc'⟩ := (getForKey_run hlm hr').1 hg
      rw [deeper_unique hi hl hr htr hc hr' ht' hc']
      exact hmiss.symm

variable {level' : List (List (Table K V))}

theorem deeper_eq (h : AgreeAt k sv sv') (hi : 1 ≤ i) (hl : sv.version.levels[i]? = some level)
    (hl' : sv'.version.levels[i]? = some level') :
    findInCoveringRun (fun t : Table K V => t.get k seqno) k level =
      findInCoveringRun (fun t : Table K V => t.get k seqno) k level' := by
  obtain ⟨_, hsome, htables⟩ := h.level hl
  obtain rfl := Option.some.inj (hl'.symm.trans hsome)
  by_cases hex : ∃ t ∈ level.flatten, t.keyRange.containsKey k = true
  · obtain ⟨t, ht, hc⟩ := hex
    rw [findInCoveringRun_eq hi hl ht hc, findInCoveringRun_eq hi hl' ((htables t hc).1 ht) hc]
  · -- no table of the level is over the key
    have hnone : ∀ {sv : SuperVersion K V} {level : List (List (Table K V))},
        sv.version.levels[i]? = some level →
        (¬ ∃ t ∈ level.flatten, t.keyRange.containsKey k = true) →
        findInCoveringRun (fun t : Table K V => t.get k seqno) k level = none := by
      intro sv level hl hno
      by_contra hfind
      obtain ⟨e, he⟩ := ne_none_iff_exists'.1 hfind
      obtain ⟨run, hr, t, hg, -⟩ := findInCoveringRun_some he
      obtain ⟨ht, hc⟩ := (getForKey_run (mem_of_getElem? hl) hr).1 hg
      exact hno ⟨t, mem_flatten.2 ⟨run, hr, ht⟩, hc⟩
    rw [hnone hl hex, hnone hl' fun ⟨t, ht, hc⟩ => hex ⟨t, (htables t hc).2 ht, hc⟩]

variable {e : InternalValue K V}

theorem newest_table (hl : level ∈ sv.version.levels) (h : Newest k seqno level e) :
    ∃ t ∈ level.flatten, t.keyRange.containsKey k = true ∧ t.get k seqno = some e := by
  obtain ⟨pre, run, post, rfl, he, -⟩ := h.1
  have hr : run ∈ pre ++ run :: post := by simp
  rw [← lookup_run hl hr] at he
  obtain ⟨t, hg, hget⟩ := bind_eq_some_iff.1 he
  obtain ⟨ht, hc⟩ := (getForKey_run hl hr).1 hg
  exact ⟨t, mem_flatten.2 ⟨run, hr, ht⟩, hc, hget⟩

theorem level0_eq (h : AgreeAt k sv sv') (honce : sv.WrittenOnce)
    (hl : sv.version.levels[0]? = some level) (hl' : sv'.version.levels[0]? = some level') :
    findInL0 (fun t : Table K V => t.get k seqno) k seqno none level =
      findInL0 (fun t : Table K V => t.get k seqno) k seqno none level' := by
  obtain ⟨_, hsome, htables⟩ := h.level hl
  obtain rfl := Option.some.inj (hl'.symm.trans hsome)
  have hlm := mem_of_getElem? hl
  have hlm' := mem_of_getElem? hl'
  cases hfind : findInL0 (fun t : Table K V => t.get k seqno) k seqno none level with
  | none =>
    have hmiss := level0_misses hlm hfind
    cases hfind' : findInL0 (fun t : Table K V => t.get k seqno) k seqno none level' with
    | none => rfl
    | some e =>
      obtain ⟨t, ht, hc, hget⟩ := newest_table hlm' (level0_newest hlm' hfind')
      obtain ⟨run, hr, htr⟩ := mem_flatten.1 ((htables t hc).2 ht)
      have hno := hmiss run hr e (mem_flatMap.2 ⟨t, htr, mem_of_find?_eq_some hget⟩)
      rw [find?_some hget] at hno
      cases hno
  | some e =>
    have hnew := level0_newest hlm hfind
    obtain ⟨t, ht, hc, hget⟩ := newest_table hlm hnew
    have hmem := mem_of_find?_eq_some hget
    have hmatch := find?_some hget
    cases hfind' : findInL0 (fun t : Table K V => t.get k seqno) k seqno none level' with
    | none =>
      obtain ⟨run, hr, htr⟩ := mem_flatten.1 ((htables t hc).1 ht)
      have hno := level0_misses hlm' hfind' run hr e (mem_flatMap.2 ⟨t, htr, hmem⟩)
      rw [hmatch] at hno
      cases hno
    | some e' =>
      have hnew' := level0_newest hlm' hfind'
      obtain ⟨t', ht', hc', hget'⟩ := newest_table hlm' hnew'
      have hmem' := mem_of_find?_eq_some hget'
      have hmatch' := find?_some hget'
      -- each is the newest of both levels, so they are one write, of one table
      have hle : e'.seqno ≤ e.seqno := by
        obtain ⟨run, hr, htr⟩ := mem_flatten.1 ((htables t' hc').2 ht')
        exact hnew.2 run hr e' (mem_flatMap.2 ⟨t', htr, hmem'⟩) hmatch'
      have hge : e.seqno ≤ e'.seqno := by
        obtain ⟨run, hr, htr⟩ := mem_flatten.1 ((htables t hc).1 ht)
        exact hnew'.2 run hr e (mem_flatMap.2 ⟨t, htr, hmem⟩) hmatch
      have hkey := (InternalValue.matchesKey_iff.1 hmatch).1.trans
        (InternalValue.matchesKey_iff.1 hmatch').1.symm
      obtain rfl := honce.table_unique
        (Version.mem_tables.2 ⟨0, level, hl, ht⟩)
        (Version.mem_tables.2 ⟨0, level, hl, (htables t' hc').2 ht'⟩)
        hmem hmem' hkey (le_antisymm hge hle)
      rw [← hget, hget']

theorem findInTables_userKey
    (h : findInTables (fun t : Table K V => t.get k seqno) k seqno sv.version = some e) :
    e.userKey = k := by
  have hget : ∀ {t : Table K V}, t.get k seqno = some e → e.userKey = k :=
    fun hget => (InternalValue.matchesKey_iff.1 (find?_some hget)).1
  have hfind := (filter_eq_some_iff.1 h).1
  cases hlevels : sv.version.levels with
  | nil =>
    rw [hlevels] at hfind
    cases hfind
  | cons l0 deeper =>
    rw [hlevels, findInLevels, or_eq_some_iff] at hfind
    rcases hfind with hfind | ⟨-, hfind⟩
    · have hl : l0 ∈ sv.version.levels := by simp [hlevels]
      obtain ⟨t, -, -, he⟩ := newest_table hl (level0_newest hl hfind)
      exact hget he
    · obtain ⟨level, -, hlevel⟩ := exists_of_findSome?_eq_some hfind
      obtain ⟨_, _, t, -, he⟩ := findInCoveringRun_some hlevel
      exact hget he

theorem findInTables_eq (h : AgreeAt k sv sv') (honce : sv.WrittenOnce) :
    findInTables (fun t : Table K V => t.get k seqno) k seqno sv.version =
      findInTables (fun t : Table K V => t.get k seqno) k seqno sv'.version := by
  have hdepth := h.depth
  rw [findInTables, findInTables]
  congr 1
  cases hlevels : sv.version.levels with
  | nil =>
    rw [hlevels, length_nil, eq_comm, length_eq_zero_iff] at hdepth
    rw [hdepth]
  | cons l0 deeper =>
    cases hlevels' : sv'.version.levels with
    | nil =>
      rw [hlevels, hlevels'] at hdepth
      cases hdepth
    | cons l0' deeper' =>
      have hl0 : sv.version.levels[0]? = some l0 := by rw [hlevels]; rfl
      have hl0' : sv'.version.levels[0]? = some l0' := by rw [hlevels']; rfl
      have hrest : deeper.map (findInCoveringRun (fun t : Table K V => t.get k seqno) k) =
          deeper'.map (findInCoveringRun (fun t : Table K V => t.get k seqno) k) := by
        apply ext_getElem
        · simpa [hlevels, hlevels'] using hdepth
        · intro i hi hi'
          rw [length_map] at hi hi'
          rw [getElem_map, getElem_map]
          apply h.deeper_eq (Nat.succ_pos i)
          · rw [hlevels, getElem?_cons_succ, List.getElem?_eq_getElem hi]
          · rw [hlevels', getElem?_cons_succ, List.getElem?_eq_getElem hi']
      have hsome := congrArg (List.findSome? id) hrest
      rw [findSome?_map, findSome?_map] at hsome
      rw [findInLevels, findInLevels, h.level0_eq honce hl0 hl0']
      exact congrArg _ hsome

theorem mem_pointRangeTombstones_iff (h : AgreeAt k sv sv') (rt : RangeTombstone K) :
    rt ∈ sv.pointRangeTombstones k ↔ rt ∈ sv'.pointRangeTombstones k := by
  rw [mem_pointRangeTombstones, mem_pointRangeTombstones, h.memtables]
  apply and_congr_left'
  apply or_congr_left
  constructor
  · rintro ⟨t, ht, hc, hrt⟩
    exact ⟨t, (h.mem_tables_iff hc).1 ht, hc, hrt⟩
  · rintro ⟨t, ht, hc, hrt⟩
    exact ⟨t, (h.mem_tables_iff hc).2 ht, hc, hrt⟩

theorem isSuppressed_eq (h : AgreeAt k sv sv') (hk : e.userKey = k) :
    sv.isSuppressedByRangeTombstones k seqno e.seqno =
      sv'.isSuppressedByRangeTombstones k seqno e.seqno := by
  rw [isSuppressedByRangeTombstones_eq hk, isSuppressedByRangeTombstones_eq hk]
  exact isRtSuppressed_congr e fun rt _ _ => h.mem_pointRangeTombstones_iff rt

theorem getValue_userKey (h : sv.getValue k seqno = some e) :
    e.userKey = k := by
  rw [getValue] at h
  cases hmem : sv.memtablesNewestFirst.findSome? fun m => m.get k seqno with
  | some f =>
    simp only [hmem] at h
    split_ifs at h
    cases h
    obtain ⟨m, -, hget⟩ := exists_of_findSome?_eq_some hmem
    exact (InternalValue.matchesKey_iff.1 (find?_some hget)).1
  | none =>
    simp only [hmem] at h
    exact findInTables_userKey (filter_eq_some_iff.1 h).1

theorem getValue_eq (h : AgreeAt k sv sv') (honce : sv.WrittenOnce) :
    sv.getValue k seqno = sv'.getValue k seqno := by
  rw [getValue, getValue, ← h.memtables, ← h.findInTables_eq honce]
  cases hmem : sv.memtablesNewestFirst.findSome? fun m => m.get k seqno with
  | some e =>
    obtain ⟨m, -, hget⟩ := exists_of_findSome?_eq_some hmem
    have hk := (InternalValue.matchesKey_iff.1 (find?_some hget)).1
    simp only [h.isSuppressed_eq hk]
  | none =>
    cases hfind : findInTables (fun t : Table K V => t.get k seqno) k seqno sv.version with
    | none => rfl
    | some e => simp only [filter_some, h.isSuppressed_eq (findInTables_userKey hfind)]

theorem readKey_eq_of_mem {rts rts' : List (RangeTombstone K)} (h : ∀ rt, rt ∈ rts ↔ rt ∈ rts')
    {es : List (InternalValue K V)} (hk : ∀ e ∈ es, e.userKey = k) :
    (⟨op, rts, seqno⟩ : MvccStream K V).readKey es =
      (⟨op, rts', seqno⟩ : MvccStream K V).readKey es := by
  refine Informed.readKey_eq ?_ (fun rt => (h rt).1) hk
  intro _ x _ _ _ _ hs
  rw [isRtSuppressed_congr x fun rt _ _ => h rt]
  exact hs

theorem get_eq (h : AgreeAt k sv sv') (honce : sv.WrittenOnce) (honce' : sv'.WrittenOnce) :
    sv.get op k seqno = sv'.get op k seqno := by
  rw [get, get, ← h.getValue_eq honce]
  cases hval : sv.getValue k seqno with
  | none => rfl
  | some e =>
    simp only [createRangePoint_head, ← h.history_eq honce honce']
    rw [readKey_eq_of_mem h.mem_pointRangeTombstones_iff fun e he => history_userKey he]
    simp only [h.isSuppressed_eq (getValue_userKey hval)]

end PointRead

theorem scanValue_eq_iff [Nontrivial V] (h : AgreeAt k sv sv') (honce : sv.WrittenOnce)
    (honce' : sv'.WrittenOnce) (hsub : sv'.rangeTombstones ⊆ sv.rangeTombstones) :
    (∀ op, sv'.scanValue op k seqno = sv.scanValue op k seqno) ↔
      Informed sv'.rangeTombstones sv.rangeTombstones seqno (sv.history k seqno) := by
  have hk : ∀ e ∈ sv.history k seqno, e.userKey = k := fun e he => history_userKey he
  have hread : ∀ op, sv'.scanValue op k seqno =
      (⟨op, sv'.rangeTombstones, seqno⟩ : MvccStream K V).readKey (sv.history k seqno) := by
    intro op
    rw [scanValue_eq (opensInOrder honce'.sources_tieFree), h.history_eq honce honce']
  simp only [hread, scanValue_eq (opensInOrder honce.sources_tieFree)]
  exact ⟨Informed.of_readKey_eq hsub hk, fun hinf op => hinf.readKey_eq hsub hk⟩

end AgreeAt

end LsmTree.SuperVersion
