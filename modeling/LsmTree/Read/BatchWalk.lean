import LsmTree.Read.BatchLevel

/-! A batch answers every key as a walk for that key alone does: level by level, and through the
sorting, the removal of repetitions and the way back to the input positions. -/
namespace LsmTree

open List Function

variable {T K V : Type*} [LinearOrder K] [TableMeta T K]

section Walk

variable {reads : BatchReads T K V} {lookup : K → T → Option (InternalValue K V)} {seqno : ℕ}

def levelRead (lookup : K → T → Option (InternalValue K V)) (seqno i : ℕ) (level : List (List T))
    (k : K) : Option (InternalValue K V) :=
  if i = 0 then findInL0 (lookup k) k seqno none level else findInCoveringRun (lookup k) k level

structure LevelReadable (reads : BatchReads T K V) (lookup : K → T → Option (InternalValue K V))
    (seqno i : ℕ) (level : List (List T)) : Prop where
  ids : ∀ run ∈ level, IdsApart run
  answers : ∀ run ∈ level, ∀ t ∈ run, reads.Answers lookup t
  visible : ∀ run ∈ level, ∀ t ∈ run, ∀ k, ∀ item ∈ lookup k t, item.seqno < seqno
  oneRun : i ≠ 0 → ∀ k, level.Pairwise fun run run' =>
    getForKey run k = none ∨ getForKey run' k = none

variable {k : K} {level : List (List T)}

theorem findInL0_eq_foldl (hvis : ∀ run ∈ level, ∀ t ∈ run, ∀ item ∈ lookup k t, item.seqno < seqno)
    (best : Option (InternalValue K V)) : findInL0 (lookup k) k seqno best level =
      level.foldl (fun best run => pickHigher best ((getForKey run k).bind (lookup k))) best := by
  induction level generalizing best with
  | nil => rfl
  | cons run level ih =>
    obtain ⟨hrun, hlevel⟩ := forall_mem_cons.1 hvis
    rw [findInL0, foldl_cons]
    cases hitem : (getForKey run k).bind (lookup k) with
    | none => exact ih hlevel best
    | some item =>
      simp only [pickHigher]
      split_ifs with hold hceil
      · exact ih hlevel best
      · -- nothing visible is newer, so the rest of the level changes nothing
        have hstop : ∀ runs : List (List T), runs ⊆ level → runs.foldl (fun best run =>
            pickHigher best ((getForKey run k).bind (lookup k))) (some item) = some item := by
          intro runs
          induction runs with
          | nil => exact fun _ => rfl
          | cons run' runs ih' =>
            intro hsub
            obtain ⟨hrun', hsub⟩ := cons_subset.1 hsub
            rw [foldl_cons]
            have hkeep : pickHigher (some item) ((getForKey run' k).bind (lookup k)) = some item := by
              cases hother : (getForKey run' k).bind (lookup k) with
              | none => rfl
              | some other =>
                obtain ⟨t, ht, hfound⟩ := Option.bind_eq_some_iff.1 hother
                have hlt := hlevel run' hrun' t (getForKey_some ht).1 other hfound
                have hle : other.seqno ≤ item.seqno := by omega
                simp [pickHigher, hle]
            rw [hkeep]
            exact ih' hsub
        exact (hstop level (List.Subset.refl _)).symm
      · exact ih hlevel (some item)

theorem findInCoveringRun_eq_foldl
    (hone : level.Pairwise fun run run' => getForKey run k = none ∨ getForKey run' k = none) :
    findInCoveringRun (lookup k) k level = highestOfRuns lookup k level := by
  have huncovered : ∀ (runs : List (List T)) (best : Option (InternalValue K V)),
      (∀ run ∈ runs, getForKey run k = none) → runs.foldl (fun best run =>
        pickHigher best ((getForKey run k).bind (lookup k))) best = best := by
    intro runs best hnone
    induction runs with
    | nil => rfl
    | cons run runs ih =>
      obtain ⟨hrun, hruns⟩ := forall_mem_cons.1 hnone
      rw [foldl_cons, hrun]
      exact ih hruns
  rw [highestOfRuns]
  induction level with
  | nil => rfl
  | cons run level ih =>
    obtain ⟨hrun, hlevel⟩ := pairwise_cons.1 hone
    rw [findInCoveringRun, foldl_cons]
    cases hcover : getForKey run k with
    | none => exact ih hlevel
    | some t =>
      rw [huncovered level _ fun run' hrun' => (hrun run' hrun').resolve_left (by simp [hcover])]
      simp only [Option.bind_some]
      cases lookup k t <;> rfl

variable {i : ℕ}

theorem Version.LevelsInOrder.oneRun {v : Version T} (h : v.LevelsInOrder) (hi : i ≠ 0)
    (hl : v.levels[i]? = some level) (k : K) :
    level.Pairwise fun run run' => getForKey run k = none ∨ getForKey run' k = none := by
  have hlevel : v.level i = level := by simp [Version.level, hl]
  have hapart := h.1 i (Nat.one_le_iff_ne_zero.2 hi)
  rw [hlevel, pairwise_flatten] at hapart
  apply hapart.2.imp
  intro run run' hab
  by_contra hboth
  rw [not_or, ← ne_eq, ← ne_eq, Option.ne_none_iff_exists', Option.ne_none_iff_exists'] at hboth
  obtain ⟨⟨t, ht⟩, t', ht'⟩ := hboth
  obtain ⟨hmem, hc⟩ := getForKey_some ht
  obtain ⟨hmem', hc'⟩ := getForKey_some ht'
  simp only [KeyRange.containsKey, decide_eq_true_eq] at hc hc'
  exact apart_iff.1 (hab t hmem t' hmem') ⟨hc'.1.trans hc.2, hc.1.trans hc'.2⟩

variable {s : BatchState K V}

theorem resolveLevel_reads (h : LevelReadable reads lookup seqno i level) (oversize : Bool)
    (hasc : Ascending s.remaining) (hnone : ∀ x ∈ s.remaining, s.results x.1 = none) :
    ReadsLevel (levelRead lookup seqno i level) s
      (resolveLevel reads seqno oversize (i == 0) level s) := by
  unfold resolveLevel
  by_cases hi : i = 0
  · have hread : levelRead lookup seqno i level = fun k => findInL0 (lookup k) k seqno none level := by
      funext k
      exact if_pos hi
    dsimp only
    split_ifs with hchunked h0
    · have hsame : levelRead lookup seqno i level = fun k => highestOfRuns lookup k level := by
        rw [hread]
        funext k
        exact findInL0_eq_foldl (fun run hr t ht => h.visible run hr t ht k) none
      rw [hsame]
      exact resolveLevelChunked_reads h.ids h.answers hasc hnone
    · rw [hread]
      exact resolveL0_reads h.ids h.answers hasc hnone
    · simp [hi] at h0
  · have hread : levelRead lookup seqno i level = fun k => findInCoveringRun (lookup k) k level := by
      funext k
      exact if_neg hi
    dsimp only
    split_ifs with hchunked h0
    · have hsame : levelRead lookup seqno i level = fun k => highestOfRuns lookup k level := by
        rw [hread]
        funext k
        exact findInCoveringRun_eq_foldl (h.oneRun hi k)
      rw [hsame]
      exact resolveLevelChunked_reads h.ids h.answers hasc hnone
    · exact absurd (by simpa using h0) hi
    · rw [hread]
      exact resolveDeep_reads h.ids h.answers hasc hnone

def walkLevels (lookup : K → T → Option (InternalValue K V)) (seqno : ℕ) (k : K) :
    ℕ → List (List (List T)) → Option (InternalValue K V)
  | _, [] => none
  | i, level :: levels => (levelRead lookup seqno i level k).or (walkLevels lookup seqno k (i + 1) levels)

theorem walkLevels_eq (levels : List (List (List T))) (k : K) :
    walkLevels lookup seqno k 0 levels = findInLevels (lookup k) k seqno levels := by
  have hdeep : ∀ (i : ℕ) (levels : List (List (List T))), i ≠ 0 →
      walkLevels lookup seqno k i levels = levels.findSome? (findInCoveringRun (lookup k) k) := by
    intro i levels hi
    induction levels generalizing i with
    | nil => rfl
    | cons level levels ih =>
      rw [walkLevels, findSome?_cons, ih (i + 1) (Nat.succ_ne_zero i), levelRead, if_neg hi]
      cases findInCoveringRun (lookup k) k level <;> rfl
  cases levels with
  | nil => rfl
  | cons level levels =>
    rw [walkLevels, findInLevels, hdeep 1 levels Nat.one_ne_zero, levelRead, if_pos rfl]

theorem batchGetFromTables_reads (oversize : ℕ → Bool) {levels : List (List (List T))}
    (h : ∀ j level, levels[j]? = some level → LevelReadable reads lookup seqno (i + j) level)
    (hasc : Ascending s.remaining) (hnone : ∀ x ∈ s.remaining, s.results x.1 = none) :
    (∀ x ∈ s.remaining, (batchGetFromTables reads seqno oversize i levels s).results x.1 =
      walkLevels lookup seqno x.2 i levels) ∧
    ∀ j, (∀ x ∈ s.remaining, x.1 ≠ j) →
      (batchGetFromTables reads seqno oversize i levels s).results j = s.results j := by
  induction levels generalizing i s with
  | nil => exact ⟨hnone, fun _ _ => rfl⟩
  | cons level levels ih =>
    have hlevel : ReadsLevel (levelRead lookup seqno i level) s
        (resolveLevel reads seqno (oversize i) (i == 0) level s) :=
      resolveLevel_reads (h 0 level rfl) (oversize i) hasc hnone
    rw [batchGetFromTables]
    split_ifs with hempty
    · rw [isEmpty_iff.1 hempty]
      exact ⟨nofun, fun _ _ => rfl⟩
    · have hmem : ∀ x, x ∈ (resolveLevel reads seqno (oversize i) (i == 0) level s).remaining ↔
          x ∈ s.remaining ∧ levelRead lookup seqno i level x.2 = none := by
        intro x
        rw [hlevel.remaining, mem_filter, Option.isNone_iff_eq_none]
      have hrest := ih (i := i + 1) (s := resolveLevel reads seqno (oversize i) (i == 0) level s)
        (fun j l hl => by
          have hnext := h (j + 1) l hl
          rwa [← Nat.add_assoc, Nat.add_right_comm] at hnext)
        (hlevel.remaining ▸ hasc.sublist filter_sublist)
        (fun x hx => (hlevel.answered x ((hmem x).1 hx).1).trans ((hmem x).1 hx).2)
      constructor
      · intro x hx
        rw [walkLevels]
        cases hfound : levelRead lookup seqno i level x.2 with
        | none =>
          rw [Option.none_or]
          exact hrest.1 x ((hmem x).2 ⟨hx, hfound⟩)
        | some item =>
          rw [Option.some_or, hrest.2 x.1, hlevel.answered x hx]
          · exact hfound
          · intro y hy hidx
            obtain ⟨hy, hmiss⟩ := (hmem y).1 hy
            rw [inj_on_of_nodup_map hasc.indices hy hx hidx, hfound] at hmiss
            cases hmiss
      · intro j hj
        rw [hrest.2 j fun x hx => hj x ((hmem x).1 hx).1, hlevel.others j hj]

end Walk

section Batch

theorem dedupSortedMissKeys_spec (last : Option (ℕ × K)) {xs : List (ℕ × K)}
    (hsorted : xs.Pairwise fun a b => a.2 ≤ b.2) (hindices : (xs.map (·.1)).Nodup)
    (hlast : ∀ rep ∈ last, ∀ x ∈ xs, rep.2 ≤ x.2 ∧ rep.1 ≠ x.1) :
    (dedupSortedMissKeys last xs).1.Sublist xs ∧
    ((dedupSortedMissKeys last xs).1.Pairwise fun a b => a.2 < b.2) ∧
    (∀ rep ∈ last, ∀ x ∈ (dedupSortedMissKeys last xs).1, rep.2 < x.2) ∧
    (∀ x ∈ xs, x ∈ (dedupSortedMissKeys last xs).1 ∨
      ∃ rep, (x.1, rep) ∈ (dedupSortedMissKeys last xs).2) ∧
    ∀ d ∈ (dedupSortedMissKeys last xs).2,
      (∀ y ∈ (dedupSortedMissKeys last xs).1, y.1 ≠ d.1) ∧
      ∃ x ∈ xs, ∃ rep, (rep ∈ (dedupSortedMissKeys last xs).1 ∨ rep ∈ last) ∧
        rep.2 = x.2 ∧ d = (x.1, rep.1) := by
  induction xs generalizing last with
  | nil => exact ⟨List.Sublist.refl _, List.Pairwise.nil, nofun, nofun, nofun⟩
  | cons x xs ih =>
    obtain ⟨hx, hxs⟩ := pairwise_cons.1 hsorted
    obtain ⟨hidx, hindices⟩ := nodup_cons.1 hindices
    have hidx' : ∀ y ∈ xs, x.1 ≠ y.1 := fun y hy he => hidx (mem_map.2 ⟨y, hy, he.symm⟩)
    rw [dedupSortedMissKeys]
    cases hrep : last.filter fun rep => decide (rep.2 = x.2) with
    | some rep =>
      obtain ⟨hlast', hkey⟩ := Option.filter_eq_some_iff.1 hrep
      have hkey := of_decide_eq_true hkey
      obtain ⟨hsub, hstrict, habove, hcases, hdups⟩ := ih _ hxs hindices fun r hr y hy =>
        hlast r hr y (mem_cons_of_mem _ hy)
      refine ⟨hsub.trans (sublist_cons_self _ _), hstrict, habove, ?_, ?_⟩
      · refine forall_mem_cons.2 ⟨Or.inr ⟨rep.1, mem_cons_self⟩, fun y hy => ?_⟩
        rcases hcases y hy with hin | ⟨r, hr⟩
        · exact Or.inl hin
        · exact Or.inr ⟨r, mem_cons_of_mem _ hr⟩
      · refine forall_mem_cons.2 ⟨⟨?_, x, mem_cons_self, rep, Or.inr hlast', hkey, rfl⟩, ?_⟩
        · exact fun y hy he => hidx' y (hsub.subset hy) he.symm
        · intro d hd
          obtain ⟨hout, y, hy, r, hr, hk, heq⟩ := hdups d hd
          exact ⟨hout, y, mem_cons_of_mem _ hy, r, hr, hk, heq⟩
    | none =>
      have hnew : ∀ rep ∈ last, rep.2 < x.2 := by
        intro rep hr
        apply lt_of_le_of_ne (hlast rep hr x mem_cons_self).1
        intro he
        have hkeep : last.filter (fun rep => decide (rep.2 = x.2)) = some rep := by
          rw [Option.filter_eq_some_iff]
          exact ⟨hr, decide_eq_true he⟩
        rw [hrep] at hkeep
        cases hkeep
      obtain ⟨hsub, hstrict, habove, hcases, hdups⟩ := @ih (some x) hxs hindices (by
        intro rep hr y hy
        cases hr
        exact ⟨hx y hy, hidx' y hy⟩)
      have habove' := habove x rfl
      refine ⟨hsub.cons_cons x, pairwise_cons.2 ⟨habove', hstrict⟩, ?_, ?_, ?_⟩
      · intro rep hr
        refine forall_mem_cons.2 ⟨hnew rep hr, fun y hy => ?_⟩
        exact lt_trans (hnew rep hr) (habove' y hy)
      · refine forall_mem_cons.2 ⟨Or.inl mem_cons_self, fun y hy => ?_⟩
        exact (hcases y hy).imp_left (mem_cons_of_mem _)
      · intro d hd
        obtain ⟨hout, y, hy, r, hr, hk, rfl⟩ := hdups d hd
        refine ⟨forall_mem_cons.2 ⟨hidx' y hy, hout⟩, y, mem_cons_of_mem _ hy, r, ?_, hk, rfl⟩
        rcases hr with hr | hr
        · exact Or.inl (mem_cons_of_mem _ hr)
        · cases hr
          exact Or.inl mem_cons_self

omit [LinearOrder K] in
theorem fanOutDuplicates_spec {duplicates : List (ℕ × ℕ)} (results answer : BatchResults K V)
    (looked : ℕ → Prop) (h : ∀ d ∈ duplicates, looked d.2 ∧ ¬ looked d.1 ∧ results d.2 = answer d.1) :
    (∀ d ∈ duplicates, fanOutDuplicates duplicates results d.1 = answer d.1) ∧
    ∀ i, (∀ d ∈ duplicates, d.1 ≠ i) → fanOutDuplicates duplicates results i = results i := by
  induction duplicates generalizing results with
  | nil => exact ⟨nofun, fun _ _ => rfl⟩
  | cons d ds ih =>
    obtain ⟨⟨hrep, hdup, hanswer⟩, hds⟩ := forall_mem_cons.1 h
    have hrest := ih (update results d.1 (results d.2)) (by
      intro d' hd'
      obtain ⟨hrep', hdup', hanswer'⟩ := hds d' hd'
      have hne : d'.2 ≠ d.1 := fun he => hdup (he ▸ hrep')
      exact ⟨hrep', hdup', by rw [update_of_ne hne, hanswer']⟩)
    constructor
    · refine forall_mem_cons.2 ⟨?_, hrest.1⟩
      by_cases hagain : ∃ d' ∈ ds, d'.1 = d.1
      · obtain ⟨d', hd', he⟩ := hagain
        have hlater := hrest.1 d' hd'
        rwa [he] at hlater
      · have hlater := hrest.2 d.1 fun d' hd' he => hagain ⟨d', hd', he⟩
        rw [update_self] at hlater
        exact hlater.trans hanswer
    · intro i hi
      obtain ⟨hne, hrest'⟩ := forall_mem_cons.1 hi
      have hlater := hrest.2 i hrest'
      rwa [update_of_ne (Ne.symm hne)] at hlater

variable {reads : BatchReads T K V} {lookup : K → T → Option (InternalValue K V)} {seqno : ℕ}

theorem multiGetEntries_eq {levels : List (List (List T))}
    (h : ∀ i level, levels[i]? = some level → LevelReadable reads lookup seqno i level)
    (memtableGet : K → Option (InternalValue K V)) (oversize : ℕ → Bool) {keys : List K} {i : ℕ}
    {k : K} (hk : keys[i]? = some k) :
    multiGetEntries memtableGet reads levels seqno oversize keys i =
      (memtableGet k).or (findInLevels (lookup k) k seqno levels) := by
  obtain ⟨missing, hmissing⟩ : ∃ missing, missing = (keys.zipIdx.filter
    fun x => (memtableGet x.1).isNone).map fun x => (x.2, x.1) := ⟨_, rfl⟩
  obtain ⟨sorted, hsorted⟩ : ∃ sorted, sorted = missing.insertionSort fun a b => a.2 ≤ b.2 := ⟨_, rfl⟩
  have hmem : ∀ x, x ∈ sorted ↔ keys[x.1]? = some x.2 ∧ memtableGet x.2 = none := by
    intro x
    rw [hsorted, mem_insertionSort, hmissing, mem_map]
    constructor
    · rintro ⟨y, hy, rfl⟩
      obtain ⟨hy, hnone⟩ := mem_filter.1 hy
      exact ⟨mem_zipIdx_iff_getElem?.1 hy, Option.isNone_iff_eq_none.1 hnone⟩
    · rintro ⟨hkey, hnone⟩
      exact ⟨(x.2, x.1), mem_filter.2 ⟨mem_zipIdx_iff_getElem?.2 hkey,
        Option.isNone_iff_eq_none.2 hnone⟩, rfl⟩
  have hindices : (sorted.map (·.1)).Nodup := by
    rw [hsorted, ((perm_insertionSort _ missing).map _).nodup_iff, hmissing, map_map]
    have hidx : (keys.zipIdx.map Prod.snd).Nodup := by
      rw [zipIdx_map_snd]
      exact nodup_range'
    exact hidx.sublist (filter_sublist.map _)
  have hle : sorted.Pairwise fun a b => a.2 ≤ b.2 := by
    rw [hsorted]
    have : IsTrans (ℕ × K) fun a b => a.2 ≤ b.2 := ⟨fun _ _ _ => le_trans⟩
    have : Std.Total fun a b : ℕ × K => a.2 ≤ b.2 := ⟨fun _ _ => le_total _ _⟩
    exact pairwise_insertionSort _ _
  obtain ⟨hsub, hstrict, -, hcases, hdups⟩ := dedupSortedMissKeys_spec none hle hindices nofun
  obtain ⟨found, hfound⟩ : ∃ found : BatchResults K V, found = fun i => (keys[i]?).bind memtableGet :=
    ⟨_, rfl⟩
  have hbatch := batchGetFromTables_reads (i := 0) oversize
    (s := ⟨(dedupSortedMissKeys none sorted).1, found⟩)
    (fun j level hj => by rw [Nat.zero_add]; exact h j level hj)
    ⟨hstrict, hindices.sublist (hsub.map _)⟩ (by
      intro x hx
      obtain ⟨hkey, hnone⟩ := (hmem x).1 (hsub.subset hx)
      rw [hfound]
      simp only [hkey, Option.bind_some, hnone])
  obtain ⟨results, hresults⟩ : ∃ results, results = (batchGetFromTables reads seqno oversize 0 levels
    ⟨(dedupSortedMissKeys none sorted).1, found⟩).results := ⟨_, rfl⟩
  rw [← hresults] at hbatch
  -- the answer of a position is that of its key
  obtain ⟨answer, hanswer⟩ : ∃ answer : BatchResults K V, answer = fun i =>
    (keys[i]?).bind fun k => findInLevels (lookup k) k seqno levels := ⟨_, rfl⟩
  have hfan := fanOutDuplicates_spec results answer
    (fun i => ∃ x ∈ (dedupSortedMissKeys none sorted).1, x.1 = i) (by
      intro d hd
      obtain ⟨hout, x, hx, rep, hrep, hkey, rfl⟩ := hdups d hd
      have hrep := hrep.resolve_right (by simp)
      refine ⟨⟨rep, hrep, rfl⟩, fun ⟨y, hy, he⟩ => hout y hy he, ?_⟩
      rw [hbatch.1 rep hrep, walkLevels_eq, hanswer]
      simp only [((hmem x).1 hx).1, Option.bind_some, hkey])
  have hresult : multiGetEntries memtableGet reads levels seqno oversize keys i =
      fanOutDuplicates (dedupSortedMissKeys none sorted).2 results i := by
    rw [hresults, hfound, hsorted, hmissing]
    rfl
  rw [hresult]
  cases hmt : memtableGet k with
  | some e =>
    -- answered by a memtable, and not touched afterwards
    have hnotin : ∀ x ∈ sorted, x.1 ≠ i := by
      rintro x hx rfl
      obtain ⟨hkey, hnone⟩ := (hmem x).1 hx
      rw [hk] at hkey
      rw [← Option.some.inj hkey, hmt] at hnone
      cases hnone
    rw [hfan.2 i, hbatch.2 i fun x hx => hnotin x (hsub.subset hx), hfound]
    · simp only [hk, Option.bind_some, hmt, Option.some_or]
    · intro d hd
      obtain ⟨-, x, hx, rep, -, -, rfl⟩ := hdups d hd
      exact hnotin x hx
  | none =>
    rw [Option.none_or]
    have hin : (i, k) ∈ sorted := (hmem (i, k)).2 ⟨hk, hmt⟩
    rcases hcases (i, k) hin with hlooked | ⟨rep, hdup⟩
    · rw [hfan.2 i, hbatch.1 (i, k) hlooked, walkLevels_eq]
      intro d hd he
      exact (hdups d hd).1 (i, k) hlooked he.symm
    · rw [hfan.1 (i, rep) hdup, hanswer]
      simp only [hk, Option.bind_some]

end Batch

end LsmTree
