import LsmTree.Read.SuperVersion
import LsmTree.Theory.Interleaving

/-! The history of a key: its visible entries over all sources, newest first. -/
namespace LsmTree

open List Option

variable {K V : Type*} [LinearOrder K]

theorem seqno_le_of_find? {source : List (InternalValue K V)} {k : K} {seqno : ℕ}
    {e f : InternalValue K V} (hs : source.Pairwise fun a b => a.le b = true)
    (he : source.find? (InternalValue.matchesKey k seqno) = some e) (hf : f ∈ source)
    (hm : f.matchesKey k seqno = true) : f.seqno ≤ e.seqno := by
  rw [find?_eq_some_iff_append] at he
  obtain ⟨hme, pre, post, rfl, hpre⟩ := he
  rw [InternalValue.matchesKey_iff] at hme
  have hkey := (InternalValue.matchesKey_iff.1 hm).1
  rcases mem_append.1 hf with hf | hf
  · have := hpre f hf
    rw [hm] at this
    cases this
  · rcases mem_cons.1 hf with rfl | hf
    · exact le_rfl
    · have hle := (pairwise_cons.1 (pairwise_append.1 hs).2.1).1 f hf
      rcases InternalValue.le_iff.1 hle with hlt | hle
      · exact absurd hlt (by rw [hme.1, hkey]; exact lt_irrefl k)
      · exact hle.2

section Search

variable {T : Type*} [TableMeta T K] {lookup : T → Option (InternalValue K V)} {k : K} {seqno : ℕ}
  {runs : List (List T)} {best : Option (InternalValue K V)} {e : InternalValue K V}

theorem findInL0_none (h : findInL0 lookup k seqno best runs = none) :
    best = none ∧ ∀ run ∈ runs, (getForKey run k).bind lookup = none := by
  induction runs generalizing best with
  | nil => exact ⟨h, by simp⟩
  | cons run runs ih =>
    rw [findInL0] at h
    cases hf : (getForKey run k).bind lookup with
    | none =>
      rw [hf] at h
      exact ⟨(ih h).1, forall_mem_cons.2 ⟨hf, (ih h).2⟩⟩
    | some item =>
      simp only [hf] at h
      split_ifs at h with hb hc
      · obtain ⟨rfl, -⟩ := ih h
        cases hb
      · cases (ih h).1

/-- The first of the runs that have the newest hit gives it. -/
theorem findInL0_some
    (hvis : ∀ run ∈ runs, ∀ item ∈ (getForKey run k).bind lookup, item.seqno < seqno)
    (h : findInL0 lookup k seqno best runs = some e) :
    (best = some e ∨ ∃ pre run post, runs = pre ++ run :: post ∧
      (getForKey run k).bind lookup = some e ∧ (∀ b ∈ best, b.seqno < e.seqno) ∧
      ∀ r ∈ pre, ∀ item ∈ (getForKey r k).bind lookup, item.seqno < e.seqno) ∧
    (∀ b ∈ best, b.seqno ≤ e.seqno) ∧
      ∀ run ∈ runs, ∀ item ∈ (getForKey run k).bind lookup, item.seqno ≤ e.seqno := by
  induction runs generalizing best with
  | nil =>
    rw [findInL0] at h
    subst h
    exact ⟨Or.inl rfl, by simp, by simp⟩
  | cons run runs ih =>
    obtain ⟨hhere, hvis⟩ := forall_mem_cons.1 hvis
    rw [findInL0] at h
    cases hf : (getForKey run k).bind lookup with
    | none =>
      rw [hf] at h
      obtain ⟨hsrc, hbest, hruns⟩ := ih hvis h
      refine ⟨hsrc.imp_right ?_, hbest, forall_mem_cons.2 ⟨by simp [hf], hruns⟩⟩
      rintro ⟨pre, run', post, rfl, he, hb, hpre⟩
      exact ⟨run :: pre, run', post, rfl, he, hb, forall_mem_cons.2 ⟨by simp [hf], hpre⟩⟩
    | some item =>
      simp only [hf] at h
      split_ifs at h with hb hc
      · obtain ⟨b, hbm, hle⟩ := (any_eq_true _ _).1 hb
        have hle := of_decide_eq_true hle
        obtain ⟨hsrc, hbest, hruns⟩ := ih hvis h
        have hitem := hle.trans (hbest b hbm)
        refine ⟨hsrc.imp_right ?_, hbest, forall_mem_cons.2 ⟨by simpa [hf] using hitem, hruns⟩⟩
        rintro ⟨pre, run', post, rfl, he, hlt, hpre⟩
        refine ⟨run :: pre, run', post, rfl, he, hlt, forall_mem_cons.2 ⟨?_, hpre⟩⟩
        simpa [hf] using hle.trans_lt (hlt b hbm)
      · cases h
        have hbest : ∀ b ∈ best, b.seqno < e.seqno := fun b hbm => not_le.1 fun hle =>
          hb ((any_eq_true _ _).2 ⟨b, hbm, decide_eq_true hle⟩)
        refine ⟨Or.inr ⟨[], run, runs, rfl, hf, hbest, by simp⟩, fun b hbm => (hbest b hbm).le,
          forall_mem_cons.2 ⟨by simp [hf], fun run' hr item' hi => ?_⟩⟩
        have := hvis run' hr item' hi
        omega
      · obtain ⟨hsrc, hbest, hruns⟩ := ih hvis h
        have hitem := hbest item rfl
        have hlt : ∀ b ∈ best, b.seqno < item.seqno := fun b hbm => not_le.1 fun hle =>
          hb ((any_eq_true _ _).2 ⟨b, hbm, decide_eq_true hle⟩)
        refine ⟨Or.inr ?_, fun b hbm => ((hlt b hbm).trans_le hitem).le,
          forall_mem_cons.2 ⟨by simpa [hf] using hitem, hruns⟩⟩
        rcases hsrc with hsrc | ⟨pre, run', post, rfl, he, hb', hpre⟩
        · cases hsrc
          exact ⟨[], run, runs, rfl, hf, hlt, by simp⟩
        · exact ⟨run :: pre, run', post, rfl, he,
            fun b hbm => (hlt b hbm).trans (hb' item rfl),
            forall_mem_cons.2 ⟨by simpa [hf] using hb' item rfl, hpre⟩⟩

theorem findInCoveringRun_some (h : findInCoveringRun lookup k runs = some e) :
    ∃ run ∈ runs, ∃ t, getForKey run k = some t ∧ lookup t = some e := by
  induction runs with
  | nil => cases h
  | cons run runs ih =>
    rw [findInCoveringRun] at h
    split at h
    · exact ⟨run, mem_cons_self, _, ‹_›, h⟩
    · obtain ⟨run', hr, ht⟩ := ih h
      exact ⟨run', mem_cons_of_mem _ hr, ht⟩

theorem findInCoveringRun_none (h : findInCoveringRun lookup k runs = none) :
    (∀ run ∈ runs, getForKey run k = none) ∨
      ∃ run ∈ runs, ∃ t, getForKey run k = some t ∧ lookup t = none := by
  induction runs with
  | nil => exact Or.inl (by simp)
  | cons run runs ih =>
    rw [findInCoveringRun] at h
    split at h
    case h_1 t ht => exact Or.inr ⟨run, mem_cons_self, t, ht, h⟩
    case h_2 hnone =>
      rcases ih h with hall | ⟨run', hr, ht⟩
      · exact Or.inl (forall_mem_cons.2 ⟨hnone, hall⟩)
      · exact Or.inr ⟨run', mem_cons_of_mem _ hr, ht⟩

end Search

namespace SuperVersion

variable (sv : SuperVersion K V) (k : K) (seqno : ℕ)

/-- Memtables and runs, newest first as far as they are ordered. -/
def sources : List (List (InternalValue K V)) :=
  sv.memtablesNewestFirst.map (·.entries) ++ sv.version.levels.flatten.map runEntries

def history : List (InternalValue K V) :=
  KWayMerge.mergeAll InternalValue.le
    (sv.sources.map fun source => source.filter (InternalValue.matchesKey k seqno))

def NewerThan (a b : List (InternalValue K V)) : Prop :=
  ∀ e ∈ a, ∀ f ∈ b, e.userKey = f.userKey → f.seqno < e.seqno

/-- Each source is newer than what follows; no write is in two runs of L0. -/
structure WrittenInOrder : Prop where
  sources : (sv.memtablesNewestFirst.map (·.entries) ++
    sv.version.levels.map fun level => level.flatMap runEntries).Pairwise NewerThan
  level0 : (sv.version.level 0).Pairwise fun a b => ∀ e ∈ runEntries a, ∀ f ∈ runEntries b,
    e.userKey = f.userKey → e.seqno ≠ f.seqno

/-- No source has an older write of a key than a source below it. -/
def Layered : Prop :=
  (sv.memtablesNewestFirst.map (·.entries) ++
    sv.version.levels.map fun level => level.flatMap runEntries).Pairwise
      fun a b => ∀ e ∈ a, ∀ f ∈ b, e.userKey = f.userKey → f.seqno ≤ e.seqno

variable {sv k seqno}

theorem WrittenInOrder.layered (h : sv.WrittenInOrder) : sv.Layered :=
  h.sources.imp fun hab e he f hf hk => (hab e he f hf hk).le

variable {run : List (Table K V)} {level : List (List (Table K V))} {t : Table K V}

theorem mem_tables (hl : level ∈ sv.version.levels) (hr : run ∈ level) (ht : t ∈ run) :
    t ∈ sv.version.tables :=
  mem_flatten.2 ⟨run, mem_flatten.2 ⟨level, hl, hr⟩, ht⟩

variable {e : InternalValue K V}

theorem containsKey_of_mem (ht : t ∈ sv.version.tables) (he : e ∈ t.entries) :
    t.keyRange.containsKey e.userKey = true :=
  decide_eq_true ((sv.tablesWF t ht).bounds e he)

theorem sortedRun (hl : level ∈ sv.version.levels) (hr : run ∈ level) :
    SortedRun run ∧ ∀ t ∈ run, Valid t := by
  obtain ⟨i, hi⟩ := mem_iff_getElem?.1 hl
  refine ⟨sv.levelsInOrder.2 i run ?_, fun t ht => (sv.tablesWF t (mem_tables hl hr ht)).valid⟩
  simpa [Version.level, hi] using hr

theorem getForKey_run (hl : level ∈ sv.version.levels) (hr : run ∈ level) :
    getForKey run k = some t ↔ t ∈ run ∧ t.keyRange.containsKey k = true :=
  getForKey_eq_some (sortedRun hl hr).1 (sortedRun hl hr).2

theorem runEntries_sorted (hl : level ∈ sv.version.levels) (hr : run ∈ level) :
    (runEntries run).Pairwise fun a b => a.le b = true := by
  apply pairwise_flatMap.2
  constructor
  · exact fun t ht => sv.tablesSorted t (mem_tables hl hr ht)
  · apply (sortedRun hl hr).1.imp_of_mem
    intro a b ha hb hab e he f hf
    have hae := ((sv.tablesWF a (mem_tables hl hr ha)).bounds e he).2
    have hbf := ((sv.tablesWF b (mem_tables hl hr hb)).bounds f hf).1
    exact InternalValue.le_iff.2 (Or.inl (hae.trans_lt (hab.trans_le hbf)))

variable {source : List (InternalValue K V)}

theorem source_sorted (h : source ∈ sv.sources) :
    source.Pairwise fun a b => a.le b = true := by
  rcases mem_append.1 h with h | h
  · obtain ⟨m, -, rfl⟩ := mem_map.1 h
    exact m.sorted
  · obtain ⟨run, hrun, rfl⟩ := mem_map.1 h
    obtain ⟨level, hl, hr⟩ := mem_flatten.1 hrun
    exact runEntries_sorted hl hr

theorem runEntries_filter (hl : level ∈ sv.version.levels) (hr : run ∈ level) :
    (runEntries run).filter (InternalValue.matchesKey k seqno) =
      ((getForKey run k).map (·.entries.filter (InternalValue.matchesKey k seqno))).getD [] := by
  have hempty : ∀ t ∈ run, ¬ t.keyRange.containsKey k = true →
      t.entries.filter (InternalValue.matchesKey k seqno) = [] := by
    intro t ht hc
    apply filter_eq_nil_iff.2
    intro e he hm
    apply hc
    rw [← (InternalValue.matchesKey_iff.1 hm).1]
    exact containsKey_of_mem (mem_tables hl hr ht) he
  rw [runEntries, filter_flatMap]
  cases hg : getForKey run k with
  | none =>
    apply flatMap_eq_nil_iff.2
    intro t ht
    apply hempty t ht
    intro hc
    rw [(getForKey_run hl hr).2 ⟨ht, hc⟩] at hg
    cases hg
  | some t =>
    obtain ⟨ht, hc⟩ := (getForKey_run hl hr).1 hg
    refine SortedSearch.flatMap_eq_of_unique (c := fun t => t.keyRange.containsKey k = true)
      ?_ hempty ht hc
    apply (sortedRun hl hr).1.imp
    intro a b hab hboth
    simp only [KeyRange.containsKey, decide_eq_true_eq] at hboth
    exact absurd (hboth.2.1.trans hboth.1.2) (not_le.2 hab)

theorem lookup_run (hl : level ∈ sv.version.levels) (hr : run ∈ level) :
    (getForKey run k).bind (fun t => t.get k seqno) =
      (runEntries run).find? (InternalValue.matchesKey k seqno) := by
  rw [← head?_filter, runEntries_filter hl hr]
  cases getForKey run k with
  | none => rfl
  | some t => exact (head?_filter).symm

theorem mem_history : e ∈ sv.history k seqno ↔
    (∃ source ∈ sv.sources, e ∈ source) ∧ e.matchesKey k seqno = true := by
  rw [history, KWayMerge.mem_mergeAll]
  constructor
  · rintro ⟨_, hs, he⟩
    obtain ⟨source, hsource, rfl⟩ := mem_map.1 hs
    exact ⟨⟨source, hsource, (mem_filter.1 he).1⟩, (mem_filter.1 he).2⟩
  · rintro ⟨⟨source, hsource, he⟩, hm⟩
    exact ⟨_, mem_map_of_mem hsource, mem_filter.2 ⟨he, hm⟩⟩

theorem history_userKey (h : e ∈ sv.history k seqno) : e.userKey = k :=
  (InternalValue.matchesKey_iff.1 (mem_history.1 h).2).1

variable {sources : List (List (InternalValue K V))}

theorem mergeAll_sorted (h : ∀ s ∈ sources, s.Pairwise fun a b => a.le b = true) :
    (KWayMerge.mergeAll InternalValue.le sources).Pairwise
      fun a b => a.le b = true :=
  KWayMerge.mergeAll_pairwise (r := fun a b : InternalValue K V => a.le b = true)
    (fun _ _ _ => InternalValue.le_trans) (fun _ _ h => h)
    (fun _ _ => InternalValue.le_of_not_le) h

theorem history_sorted :
    (sv.history k seqno).Pairwise fun a b => a.le b = true := by
  apply mergeAll_sorted
  intro s hs
  obtain ⟨source, hsource, rfl⟩ := mem_map.1 hs
  exact (source_sorted hsource).sublist filter_sublist

theorem history_newestFirst :
    (sv.history k seqno).Pairwise fun a b => b.seqno ≤ a.seqno := by
  apply history_sorted.imp_of_mem
  intro a b ha hb hle
  rcases InternalValue.le_iff.1 hle with h | h
  · rw [history_userKey ha, history_userKey hb] at h
    exact absurd h (lt_irrefl k)
  · exact h.2

def TieFree (a b : List (InternalValue K V)) : Prop :=
  ∀ e ∈ a, ∀ f ∈ b, e.userKey = f.userKey → e.seqno ≠ f.seqno

variable {a b : List (InternalValue K V)}

omit [LinearOrder K] in
theorem TieFree.symm (h : TieFree a b) : TieFree b a :=
  fun e he f hf hk hs => h f hf e he hk.symm hs.symm

omit [LinearOrder K] in
theorem NewerThan.tieFree (h : NewerThan a b) : TieFree a b :=
  fun e he f hf hk => (h e he f hf hk).ne'

theorem level_tieFree {i : ℕ} (hi : 1 ≤ i) (hl : sv.version.levels[i]? = some level) :
    level.Pairwise fun a b => TieFree (runEntries a) (runEntries b) := by
  have hmem : level ∈ sv.version.levels := mem_of_getElem? hl
  have hlevel : sv.version.level i = level := by simp [Version.level, hl]
  have hapart := sv.levelsInOrder.1 i hi
  rw [hlevel, pairwise_flatten] at hapart
  apply hapart.2.imp_of_mem
  intro a b ha hb hab e he f hf hk
  obtain ⟨t, ht, het⟩ := mem_flatMap.1 he
  obtain ⟨t', ht', hft⟩ := mem_flatMap.1 hf
  have het := (sv.tablesWF t (mem_tables hmem ha ht)).bounds e het
  have hft := (sv.tablesWF t' (mem_tables hmem hb ht')).bounds f hft
  rw [hk] at het
  exact absurd ⟨hft.1.trans het.2, het.1.trans hft.2⟩ (apart_iff.1 (hab t ht t' ht'))

theorem WrittenInOrder.sources_tieFree (h : sv.WrittenInOrder) : sv.sources.Pairwise TieFree := by
  obtain ⟨hmem, hlevels, hcross⟩ := pairwise_append.1 h.sources
  refine pairwise_append.2 ⟨hmem.imp NewerThan.tieFree, ?_, ?_⟩
  · rw [pairwise_map, pairwise_flatten]
    constructor
    · intro level hl
      obtain ⟨i, hi⟩ := mem_iff_getElem?.1 hl
      rcases i with _ | i
      · have h0 := h.level0
        rwa [Version.level, hi] at h0
      · exact level_tieFree (Nat.succ_pos i) hi
    · rw [pairwise_map] at hlevels
      apply hlevels.imp
      intro a b hab x hx y hy e he f hf
      exact hab.tieFree e (mem_flatMap.2 ⟨x, hx, he⟩) f (mem_flatMap.2 ⟨y, hy, hf⟩)
  · intro a ha b hb
    obtain ⟨run, hrun, rfl⟩ := mem_map.1 hb
    obtain ⟨level, hl, hr⟩ := mem_flatten.1 hrun
    intro e he f hf
    exact (hcross a ha _ (mem_map_of_mem hl)).tieFree e he f
      (mem_flatMap.2 ⟨run, hr, hf⟩)

theorem filter_mergeAll_write {p : InternalValue K V → Bool}
    (hs : ∀ s ∈ sources, s.Pairwise fun a b => a.le b = true)
    (hone : ∀ x y, p x = true → p y = true → x.userKey = y.userKey ∧ x.seqno = y.seqno) :
    (KWayMerge.mergeAll InternalValue.le sources).filter p = sources.flatMap (·.filter p) := by
  refine KWayMerge.filter_mergeAll_ties ?_ ?_ ?_ hs
  · exact fun _ _ _ => InternalValue.le_trans
  · exact fun _ _ => InternalValue.le_of_not_le
  intro x y hx hy
  obtain ⟨hk, hseq⟩ := hone x y hx hy
  exact InternalValue.le_iff.2 (Or.inr ⟨hk, hseq.ge⟩)

theorem history_filter {p : InternalValue K V → Bool} {s : ℕ} (hp : ∀ x, p x = true → x.seqno = s) :
    (sv.history k seqno).filter p =
      sv.sources.flatMap fun source => source.filter fun f => f.matchesKey k seqno && p f := by
  have hclass : (sv.history k seqno).filter p =
      (sv.history k seqno).filter fun f => f.matchesKey k seqno && p f := by
    apply filter_congr
    intro f hf
    rw [(mem_history.1 hf).2, Bool.true_and]
  rw [hclass, history, filter_mergeAll_write, flatMap_map]
  · simp only [List.filter_filter, Bool.and_assoc, Bool.and_comm (p _), Bool.and_self_left]
  · intro s hs
    obtain ⟨source, hsource, rfl⟩ := mem_map.1 hs
    exact (source_sorted hsource).sublist filter_sublist
  · intro x y hx hy
    simp only [Bool.and_eq_true, InternalValue.matchesKey_iff] at hx hy
    exact ⟨hx.1.1.trans hy.1.1.symm, (hp x hx.2).trans (hp y hy.2).symm⟩

theorem filter_history (h : sv.sources.Pairwise TieFree) (hs : source ∈ sv.sources)
    (he : e ∈ source) (hm : e.matchesKey k seqno = true) :
    (sv.history k seqno).filter (fun f => f.seqno = e.seqno) =
      (source.filter (InternalValue.matchesKey k seqno)).filter fun f => f.seqno = e.seqno := by
  rw [history_filter fun x hx => of_decide_eq_true hx]
  refine (SortedSearch.flatMap_eq_of_unique
    (c := fun s => ∃ f ∈ s, f.matchesKey k seqno = true ∧ f.seqno = e.seqno) ?_ ?_ hs
    ⟨e, he, hm, rfl⟩).trans ?_
  · apply h.imp
    rintro a b hab ⟨⟨x, hx, hxm, hxs⟩, y, hy, hym, hys⟩
    exact hab x hx y hy ((InternalValue.matchesKey_iff.1 hxm).1.trans
      (InternalValue.matchesKey_iff.1 hym).1.symm) (hxs.trans hys.symm)
  · intro a _ hnone
    apply filter_eq_nil_iff.2
    intro f hf hfm
    rw [Bool.and_eq_true, decide_eq_true_eq] at hfm
    exact hnone ⟨f, hf, hfm⟩
  · rw [List.filter_filter]
    simp only [Bool.and_comm]

theorem history_head {pre post : List (List (InternalValue K V))}
    (hsplit : sv.sources = pre ++ source :: post)
    (he : source.find? (InternalValue.matchesKey k seqno) = some e)
    (hpre : ∀ s ∈ pre, ∀ f ∈ s, f.matchesKey k seqno = true → f.seqno < e.seqno)
    (hmax : ∀ f ∈ sv.history k seqno, f.seqno ≤ e.seqno) :
    (sv.history k seqno).head? = some e := by
  have hm := find?_some he
  have hin : e ∈ sv.history k seqno :=
    mem_history.2 ⟨⟨source, by simp [hsplit], mem_of_find?_eq_some he⟩, hm⟩
  -- the class of the newest sequence number starts in `source`
  have hfilter : ((sv.history k seqno).filter fun f => f.seqno = e.seqno).head? = some e := by
    have hnone : (pre.flatMap fun s => s.filter fun f =>
        f.matchesKey k seqno && decide (f.seqno = e.seqno)) = [] := by
      apply flatMap_eq_nil_iff.2
      intro s hs
      apply filter_eq_nil_iff.2
      intro f hf hfm
      rw [Bool.and_eq_true, decide_eq_true_eq] at hfm
      exact (hpre s hs f hf hfm.1).ne hfm.2
    rw [← head?_filter] at he
    rw [history_filter fun x hx => of_decide_eq_true hx, hsplit, flatMap_append, hnone, nil_append,
      flatMap_cons]
    simp only [Bool.and_comm, ← List.filter_filter]
    cases hf : source.filter (InternalValue.matchesKey k seqno) with
    | nil => simp [hf] at he
    | cons y ys =>
      rw [hf] at he
      cases he
      simp
  cases hh : sv.history k seqno with
  | nil => simp [hh] at hin
  | cons x xs =>
    have hsorted : (sv.history k seqno).Pairwise fun a b => b.seqno ≤ a.seqno :=
      history_newestFirst
    rw [hh] at hsorted hin hmax hfilter
    have hx : x.seqno = e.seqno := by
      apply le_antisymm (hmax x mem_cons_self)
      rcases mem_cons.1 hin with rfl | hin
      · exact le_rfl
      · exact (pairwise_cons.1 hsorted).1 e hin
    rwa [filter_cons_of_pos (by simpa using hx)] at hfilter

theorem memtable_newest (h : sv.Layered)
    (he : (sv.memtablesNewestFirst.findSome? fun m => m.get k seqno) = some e) :
    (sv.history k seqno).head? = some e := by
  obtain ⟨pre, m, post, hsplit, hm, hpre⟩ := findSome?_eq_some_iff.1 he
  have hsources : sv.sources = pre.map (·.entries) ++ m.entries :: (post.map (·.entries) ++
      sv.version.levels.flatten.map runEntries) := by
    simp [sources, hsplit]
  have hmem := mem_of_find?_eq_some hm
  have hkey := (InternalValue.matchesKey_iff.1 (find?_some hm)).1
  have horder : sv.Layered := h
  rw [Layered, hsplit] at horder
  simp only [map_append, map_cons, append_assoc, cons_append] at horder
  have hafter := (pairwise_cons.1 (pairwise_append.1 horder).2.1).1
  have hmiss : ∀ m' ∈ pre, ∀ f ∈ m'.entries, ¬ f.matchesKey k seqno = true := fun m' hm' =>
    find?_eq_none.1 (hpre m' hm')
  apply history_head hsources hm
  · intro s hs f hf hfm
    obtain ⟨m', hm', rfl⟩ := mem_map.1 hs
    exact absurd hfm (hmiss m' hm' f hf)
  intro f hf
  obtain ⟨⟨source, hs, hfs⟩, hfm⟩ := mem_history.1 hf
  have hfkey := (InternalValue.matchesKey_iff.1 hfm).1
  have holder : ∀ b, b ∈ post.map (·.entries) ++
      sv.version.levels.map (fun level => level.flatMap runEntries) → f ∈ b → f.seqno ≤ e.seqno :=
    fun b hb hfb => hafter b hb e hmem f hfb (hkey.trans hfkey.symm)
  rcases mem_append.1 hs with hs | hs
  · obtain ⟨m', hm', rfl⟩ := mem_map.1 hs
    rw [hsplit] at hm'
    rcases mem_append.1 hm' with hm' | hm'
    · exact absurd hfm (hmiss m' hm' f hfs)
    · rcases mem_cons.1 hm' with rfl | hm'
      · exact seqno_le_of_find? m'.sorted hm hfs hfm
      · exact holder _ (mem_append_left _ (mem_map_of_mem hm')) hfs
  · obtain ⟨run, hrun, rfl⟩ := mem_map.1 hs
    obtain ⟨level, hl, hr⟩ := mem_flatten.1 hrun
    exact holder _ (mem_append_right _ (mem_map_of_mem hl))
      (mem_flatMap.2 ⟨run, hr, hfs⟩)

section Levels

variable {level : List (List (Table K V))} {e f : InternalValue K V}

def Misses (k : K) (seqno : ℕ) (level : List (List (Table K V))) : Prop :=
  ∀ run ∈ level, ∀ f ∈ runEntries run, f.matchesKey k seqno = false

def Newest (k : K) (seqno : ℕ) (level : List (List (Table K V))) (e : InternalValue K V) : Prop :=
  (∃ pre run post, level = pre ++ run :: post ∧
    (runEntries run).find? (InternalValue.matchesKey k seqno) = some e ∧
      ∀ r ∈ pre, ∀ f ∈ runEntries r, f.matchesKey k seqno = true → f.seqno < e.seqno) ∧
    ∀ run ∈ level, ∀ f ∈ runEntries run, f.matchesKey k seqno = true → f.seqno ≤ e.seqno

theorem level0_misses (hl : level ∈ sv.version.levels)
    (h : findInL0 (fun t : Table K V => t.get k seqno) k seqno none level = none) :
    Misses k seqno level := by
  intro run hr f hf
  have hnone := (findInL0_none h).2 run hr
  rw [lookup_run hl hr] at hnone
  simpa using find?_eq_none.1 hnone f hf

theorem level0_newest (hl : level ∈ sv.version.levels)
    (h : findInL0 (fun t : Table K V => t.get k seqno) k seqno none level = some e) :
    Newest k seqno level e := by
  have hspec := findInL0_some (fun run hr item hi => by
    rw [lookup_run hl hr] at hi
    exact (InternalValue.matchesKey_iff.1 (find?_some hi)).2) h
  obtain ⟨hsrc, -, hmax⟩ := hspec
  have hitem : ∀ run ∈ level, ∀ f ∈ runEntries run, f.matchesKey k seqno = true →
      ∃ item ∈ (getForKey run k).bind fun t => t.get k seqno, f.seqno ≤ item.seqno := by
    intro run hr f hf hm
    obtain ⟨item, hitem⟩ : ∃ item,
        (runEntries run).find? (InternalValue.matchesKey k seqno) = some item :=
      isSome_iff_exists.1 (find?_isSome.2 ⟨f, hf, hm⟩)
    exact ⟨item, (lookup_run hl hr).trans hitem,
      seqno_le_of_find? (runEntries_sorted hl hr) hitem hf hm⟩
  obtain ⟨pre, run, post, rfl, he, -, hpre⟩ := hsrc.resolve_left nofun
  refine ⟨⟨pre, run, post, rfl, (lookup_run hl (by simp)).symm.trans he, fun r hr f hf hm => ?_⟩,
    fun r hr f hf hm => ?_⟩
  · obtain ⟨item, hin, hle⟩ := hitem r (by simp [hr]) f hf hm
    exact hle.trans_lt (hpre r hr item hin)
  · obtain ⟨item, hin, hle⟩ := hitem r hr f hf hm
    exact hle.trans (hmax r hr item hin)

theorem not_apart {t t' : Table K V} (hc : t.keyRange.containsKey k = true)
    (hc' : t'.keyRange.containsKey k = true) : ¬ Apart t t' := by
  intro hab
  simp only [KeyRange.containsKey, decide_eq_true_eq] at hc hc'
  exact apart_iff.1 hab ⟨hc'.1.trans hc.2, hc.1.trans hc'.2⟩

theorem deeper_unique {i : ℕ} (hi : 1 ≤ i) (hl : sv.version.levels[i]? = some level)
    {run run' : List (Table K V)} {t t' : Table K V} (hr : run ∈ level) (ht : t ∈ run)
    (hc : t.keyRange.containsKey k = true) (hr' : run' ∈ level) (ht' : t' ∈ run')
    (hc' : t'.keyRange.containsKey k = true) : t = t' := by
  by_contra hne
  have hlevel : sv.version.level i = level := by simp [Version.level, hl]
  have hapart := sv.levelsInOrder.1 i hi
  rw [hlevel] at hapart
  exact not_apart hc hc' (hapart.forall (mem_flatten.2 ⟨run, hr, ht⟩)
    (mem_flatten.2 ⟨run', hr', ht'⟩) hne)

theorem deeper_misses {i : ℕ} (hi : 1 ≤ i) (hl : sv.version.levels[i]? = some level)
    (h : findInCoveringRun (fun t : Table K V => t.get k seqno) k level = none) :
    Misses k seqno level := by
  have hlm : level ∈ sv.version.levels := mem_of_getElem? hl
  intro run hr f hf
  by_contra hm
  rw [Bool.not_eq_false] at hm
  obtain ⟨t, ht, hft⟩ := mem_flatMap.1 hf
  have hc := containsKey_of_mem (mem_tables hlm hr ht) hft
  rw [(InternalValue.matchesKey_iff.1 hm).1] at hc
  rcases findInCoveringRun_none h with hall | ⟨run', hr', t', hg, hmiss⟩
  · have hnone := hall run hr
    rw [(getForKey_run hlm hr).2 ⟨ht, hc⟩] at hnone
    cases hnone
  · obtain ⟨ht', hc'⟩ := (getForKey_run hlm hr').1 hg
    obtain rfl := deeper_unique hi hl hr ht hc hr' ht' hc'
    exact find?_eq_none.1 hmiss f hft hm

theorem deeper_newest {i : ℕ} (hi : 1 ≤ i) (hl : sv.version.levels[i]? = some level)
    (h : findInCoveringRun (fun t : Table K V => t.get k seqno) k level = some e) :
    Newest k seqno level e := by
  have hlm : level ∈ sv.version.levels := mem_of_getElem? hl
  obtain ⟨run, hr, t, hg, he⟩ := findInCoveringRun_some h
  obtain ⟨ht, hc⟩ := (getForKey_run hlm hr).1 hg
  obtain ⟨pre, post, rfl, hfresh⟩ := eq_append_cons_of_mem hr
  constructor
  · refine ⟨pre, run, post, rfl, ?_, fun r hr' f hf hm => ?_⟩
    · rw [← lookup_run hlm hr, hg]
      exact he
    · obtain ⟨t', ht', hft⟩ := mem_flatMap.1 hf
      have hc' := containsKey_of_mem (mem_tables hlm (mem_append_left _ hr') ht') hft
      rw [(InternalValue.matchesKey_iff.1 hm).1] at hc'
      have hapart := sv.levelsInOrder.1 i hi
      rw [Version.level, hl, Option.getD_some, flatten_append, pairwise_append] at hapart
      exact absurd (hapart.2.2 t' (mem_flatten.2 ⟨r, hr', ht'⟩) t (by simp [ht]))
        (not_apart hc' hc)
  · intro run' hr' f hf hm
    obtain ⟨t', ht', hft⟩ := mem_flatMap.1 hf
    have hc' := containsKey_of_mem (mem_tables hlm hr' ht') hft
    rw [(InternalValue.matchesKey_iff.1 hm).1] at hc'
    obtain rfl := deeper_unique hi hl hr ht hc hr' ht' hc'
    exact seqno_le_of_find? (sv.tablesSorted t (mem_tables hlm hr ht)) he hft hm

variable (hmem : (sv.memtablesNewestFirst.findSome? fun m => m.get k seqno) = none)
include hmem

theorem mem_history_level (hf : f ∈ sv.history k seqno) :
    ∃ level ∈ sv.version.levels, ∃ run ∈ level, f ∈ runEntries run := by
  obtain ⟨⟨source, hs, hfs⟩, hfm⟩ := mem_history.1 hf
  rcases mem_append.1 hs with hs | hs
  · obtain ⟨m, hm, rfl⟩ := mem_map.1 hs
    have hnone := findSome?_eq_none_iff.1 hmem m hm
    exact absurd hfm (find?_eq_none.1 hnone f hfs)
  · obtain ⟨run, hrun, rfl⟩ := mem_map.1 hs
    obtain ⟨level, hl, hr⟩ := mem_flatten.1 hrun
    exact ⟨level, hl, run, hr, hfs⟩

theorem level_newest (pre post : List (List (List (Table K V)))) (h : sv.Layered)
    (hsplit : sv.version.levels = pre ++ level :: post) (hpre : ∀ l ∈ pre, Misses k seqno l)
    (hnew : Newest k seqno level e) : (sv.history k seqno).head? = some e := by
  have hl : level ∈ sv.version.levels := by simp [hsplit]
  obtain ⟨⟨newer, run, older, rfl, he, hnewer⟩, hmax⟩ := hnew
  have hr : run ∈ newer ++ run :: older := by simp
  have hsources : sv.sources = (sv.memtablesNewestFirst.map (·.entries) ++
      (pre.flatten ++ newer).map runEntries) ++ runEntries run ::
        (older ++ post.flatten).map runEntries := by
    simp [sources, hsplit]
  have horder := (pairwise_append.1 h).2.1
  rw [hsplit, map_append, map_cons] at horder
  have hafter := (pairwise_cons.1 (pairwise_append.1 horder).2.1).1
  apply history_head hsources he
  · intro s hs f hf hfm
    rcases mem_append.1 hs with hs | hs
    · obtain ⟨m, hm, rfl⟩ := mem_map.1 hs
      exact absurd hfm (find?_eq_none.1 (findSome?_eq_none_iff.1 hmem m hm) f hf)
    · obtain ⟨r, hrun, rfl⟩ := mem_map.1 hs
      rcases mem_append.1 hrun with hrun | hrun
      · obtain ⟨l, hl, hrun⟩ := mem_flatten.1 hrun
        rw [hpre l hl r hrun f hf] at hfm
        cases hfm
      · exact hnewer r hrun f hf hfm
  intro f hf
  have hfm := (mem_history.1 hf).2
  obtain ⟨level', hl', run', hr', hfr⟩ := mem_history_level hmem hf
  rw [hsplit] at hl'
  rcases mem_append.1 hl' with hl' | hl'
  · have hmiss := hpre level' hl' run' hr' f hfr
    rw [hfm] at hmiss
    cases hmiss
  · rcases mem_cons.1 hl' with rfl | hl'
    · exact hmax run' hr' f hfr hfm
    · have hkeys : e.userKey = f.userKey := by
        rw [(InternalValue.matchesKey_iff.1 (find?_some he)).1,
          (InternalValue.matchesKey_iff.1 hfm).1]
      exact hafter _ (mem_map_of_mem hl') e
        (mem_flatMap.2 ⟨run, hr, mem_of_find?_eq_some he⟩) f
        (mem_flatMap.2 ⟨run', hr', hfr⟩) hkeys

theorem levels_newest (h : sv.Layered) :
    findInLevels (fun t : Table K V => t.get k seqno) k seqno sv.version.levels =
      (sv.history k seqno).head? := by
  have hempty : (∀ l ∈ sv.version.levels, Misses k seqno l) → (sv.history k seqno).head? = none := by
    intro hmiss
    rw [head?_eq_none_iff, eq_nil_iff_forall_not_mem]
    intro f hf
    obtain ⟨level, hl, run, hr, hfr⟩ := mem_history_level hmem hf
    have hno := hmiss level hl run hr f hfr
    rw [(mem_history.1 hf).2] at hno
    cases hno
  rcases hlevels : sv.version.levels with _ | ⟨l0, deeper⟩
  · exact (hempty (by simp [hlevels])).symm
  · have hl0 : l0 ∈ sv.version.levels := by simp [hlevels]
    rw [findInLevels]
    cases hfind : findInL0 (fun t : Table K V => t.get k seqno) k seqno none l0 with
    | some e =>
      exact (level_newest hmem [] _ h hlevels (by simp) (level0_newest hl0 hfind)).symm
    | none =>
      have hmiss0 := level0_misses hl0 hfind
      have hindex : ∀ level ∈ deeper, ∃ i, 1 ≤ i ∧ sv.version.levels[i]? = some level := by
        intro level hl
        obtain ⟨i, hi⟩ := mem_iff_getElem?.1 hl
        exact ⟨i + 1, Nat.succ_pos i, by simpa [hlevels] using hi⟩
      rw [none_or]
      cases hdeep : deeper.findSome?
          (findInCoveringRun (fun t : Table K V => t.get k seqno) k) with
      | some e =>
        obtain ⟨pre, level, post, hsplit, hfound, hpre⟩ := findSome?_eq_some_iff.1 hdeep
        obtain ⟨i, hi, hlevel⟩ := hindex level (by simp [hsplit])
        refine (level_newest hmem (l0 :: pre) post h ?_ ?_
          (deeper_newest hi hlevel hfound)).symm
        · rw [hlevels, hsplit, cons_append]
        · refine forall_mem_cons.2 ⟨hmiss0, fun l hl => ?_⟩
          obtain ⟨j, hj, hlj⟩ := hindex l (by simp [hsplit, hl])
          exact deeper_misses hj hlj (hpre l hl)
      | none =>
        refine (hempty ?_).symm
        rw [hlevels]
        refine forall_mem_cons.2 ⟨hmiss0, fun l hl => ?_⟩
        obtain ⟨j, hj, hlj⟩ := hindex l hl
        exact deeper_misses hj hlj (findSome?_eq_none_iff.1 hdeep l hl)

end Levels

end SuperVersion

end LsmTree
