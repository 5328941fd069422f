import LsmTree.Read.History
import LsmTree.Read.MultiGet
import LsmTree.Theory.Slots

/-! A batch at one level. -/
namespace LsmTree

open List Function

variable {T K V : Type*} [LinearOrder K] [TableMeta T K]

theorem getForKey_some {run : List T} {k : K} {t : T} (h : getForKey run k = some t) :
    t ∈ run ∧ (keyRange t).containsKey k = true := by
  obtain ⟨hhead, hmin⟩ := Option.filter_eq_some_iff.1 h
  refine ⟨(dropWhile_sublist _).subset (mem_of_mem_head? hhead), decide_eq_true ?_⟩
  refine ⟨of_decide_eq_true hmin, ?_⟩
  have hmax := head?_dropWhile_not (fun t : T => decide ((keyRange t).max < k)) run
  rw [hhead] at hmax
  simpa using hmax

/-- The newer of what is known and what was found; what is known wins a tie. -/
def pickHigher (best item : Option (InternalValue K V)) : Option (InternalValue K V) :=
  match item with
  | none => best
  | some item => if best.any fun current => decide (item.seqno ≤ current.seqno) then best else some item

structure Ascending (xs : List (ℕ × K)) : Prop where
  keys : xs.Pairwise fun a b => a.2 < b.2
  indices : (xs.map (·.1)).Nodup

/-- What a table is asked for in a batch is what it is asked for by one key. -/
structure BatchReads.Answers (reads : BatchReads T K V) (lookup : K → T → Option (InternalValue K V))
    (t : T) : Prop where
  batchGet : ∀ ks : List K, ks.Pairwise (· < ·) → (∀ k ∈ ks, (keyRange t).containsKey k = true) →
    reads.batchGet t ks = ks.map fun k => lookup k t
  planned : ∀ batch : List (ℕ × K), ∀ task ∈ reads.planBlockTasks t batch, task.2 ⊆ batch
  planBlockTasks : ∀ batch : List (ℕ × K), Ascending batch →
    (∀ x ∈ batch, (keyRange t).containsKey x.2 = true) → ∀ x ∈ batch,
      ((reads.planBlockTasks t batch).flatMap fun task =>
        (task.2.filter fun y => y.1 = x.1).map fun y => task.1 y.2).foldl pickHigher none =
          lookup x.2 t

section Run

variable {reads : BatchReads T K V} {lookup : K → T → Option (InternalValue K V)} {run : List T}
  {skip : ℕ → Bool}

def IdsApart (run : List T) : Prop :=
  ∀ t ∈ run, ∀ t' ∈ run, TableMeta.id t = TableMeta.id t' → t = t'

variable (skip) in
theorem gatherBatch_split (hids : IdsApart run) {t : T} (ht : t ∈ run) (xs : List (ℕ × K)) :
    ∃ front rest, gatherBatch run skip (TableMeta.id t) xs =
        (front.filter fun x => !skip x.1, rest) ∧ xs = front ++ rest ∧
      ∀ x ∈ front, skip x.1 = false → getForKey run x.2 = some t := by
  induction xs with
  | nil => exact ⟨[], [], rfl, rfl, nofun⟩
  | cons x xs ih =>
    obtain ⟨front, rest, hgather, hsplit, htable⟩ := ih
    rw [gatherBatch]
    by_cases hskip : skip x.1 = true
    · refine ⟨x :: front, rest, ?_, by rw [hsplit, cons_append], ?_⟩
      · rw [if_pos hskip, hgather, filter_cons_of_neg (by simpa using hskip)]
      · refine forall_mem_cons.2 ⟨fun hs => ?_, htable⟩
        rw [hskip] at hs
        cases hs
    · rw [if_neg hskip]
      cases hcover : getForKey run x.2 with
      | none => exact ⟨[], x :: xs, rfl, rfl, nofun⟩
      | some t' =>
        by_cases hid : TableMeta.id t' = TableMeta.id t
        · obtain rfl := hids t' (getForKey_some hcover).1 t ht hid
          refine ⟨x :: front, rest, ?_, by rw [hsplit, cons_append], ?_⟩
          · simp only [hgather, if_true]
            rw [filter_cons_of_pos (by simpa using hskip)]
          · exact forall_mem_cons.2 ⟨fun _ => hcover, htable⟩
        · simp only [hid, if_false]
          exact ⟨[], x :: xs, rfl, rfl, nofun⟩

variable (skip) in
theorem gatherBatch_cons (hids : IdsApart run) {x : ℕ × K} (xs : List (ℕ × K)) {t : T}
    (hskip : skip x.1 = false) (ht : getForKey run x.2 = some t) :
    ∃ front rest, gatherBatch run skip (TableMeta.id t) (x :: xs) =
        (front.filter fun x => !skip x.1, rest) ∧ x :: xs = front ++ rest ∧
      rest.length ≤ xs.length ∧ ∀ x ∈ front, skip x.1 = false → getForKey run x.2 = some t := by
  obtain ⟨front, rest, hgather, hsplit, htable⟩ :=
    gatherBatch_split skip hids (getForKey_some ht).1 xs
  refine ⟨x :: front, rest, ?_, by rw [hsplit, cons_append], ?_, ?_⟩
  · simp only [gatherBatch, hskip, Bool.false_eq_true, if_false, ht, if_true, hgather]
    rw [filter_cons_of_pos (by simp [hskip])]
  · rw [hsplit, length_append]
    omega
  · exact forall_mem_cons.2 ⟨fun _ => ht, htable⟩

theorem resolveRunBatched_spec (hids : IdsApart run) (hreads : ∀ t ∈ run, reads.Answers lookup t)
    {fuel : ℕ} {xs : List (ℕ × K)} (hfuel : xs.length ≤ fuel)
    (hsorted : xs.Pairwise fun a b => a.2 < b.2) :
    (resolveRunBatched reads run skip fuel xs).covered =
        (xs.filter fun x => !skip x.1 && (getForKey run x.2).isSome).map
          (fun x => (x, (getForKey run x.2).bind (lookup x.2))) ∧
      (resolveRunBatched reads run skip fuel xs).notCovered =
        xs.filter fun x => !skip x.1 && (getForKey run x.2).isNone := by
  induction fuel generalizing xs with
  | zero =>
    obtain rfl := length_eq_zero_iff.1 (Nat.le_zero.1 hfuel)
    exact ⟨rfl, rfl⟩
  | succ fuel ih =>
    cases xs with
    | nil => exact ⟨rfl, rfl⟩
    | cons x xs =>
      have htail := ih (Nat.le_of_succ_le_succ hfuel) (pairwise_cons.1 hsorted).2
      rw [resolveRunBatched]
      by_cases hskip : skip x.1 = true
      · simp only [hskip, if_true, filter_cons, Bool.not_true, Bool.false_and,
          Bool.false_eq_true, if_false]
        exact htail
      · rw [Bool.not_eq_true] at hskip
        cases ht : getForKey run x.2 with
        | none =>
          simp only [hskip, Bool.false_eq_true, if_false, filter_cons, ht, Bool.not_false,
            Option.isSome_none, Option.isNone_none, Bool.and_false, Bool.and_true, if_true]
          exact ⟨htail.1, congrArg _ htail.2⟩
        | some t =>
          have hmem := (getForKey_some ht).1
          obtain ⟨front, rest, hgather, hsplit, hlen, htable⟩ :=
            gatherBatch_cons skip hids xs hskip ht
          simp only [hskip, Bool.false_eq_true, if_false, hgather]
          rw [hsplit] at hsorted ⊢
          obtain ⟨hfront, hrest, -⟩ := pairwise_append.1 hsorted
          obtain ⟨hcov, hnot⟩ := ih (le_trans hlen (Nat.le_of_succ_le_succ hfuel)) hrest
          have hbatch : ∀ y ∈ front.filter fun x => !skip x.1, getForKey run y.2 = some t := by
            intro y hy
            obtain ⟨hy, hs⟩ := mem_filter.1 hy
            exact htable y hy (by simpa using hs)
          have hanswer := (hreads t hmem).batchGet ((front.filter fun x => !skip x.1).map (·.2))
            (pairwise_map.2 (hfront.sublist filter_sublist)) (by
              intro k hk
              obtain ⟨y, hy, rfl⟩ := mem_map.1 hk
              exact (getForKey_some (hbatch y hy)).2)
          rw [filter_append, filter_append, map_append, ← hcov, ← hnot, hanswer]
          constructor
          · congr 1
            have hsame : (front.filter fun x => !skip x.1 && (getForKey run x.2).isSome) =
                front.filter fun x => !skip x.1 := by
              apply filter_congr
              intro y hy
              cases hs : skip y.1 with
              | true => rfl
              | false => simp [htable y hy hs]
            rw [hsame, map_map, List.zip, zipWith_map_right, zipWith_self]
            apply map_congr_left
            intro y hy
            simp [hbatch y hy]
          · have hnil : (front.filter fun x => !skip x.1 && (getForKey run x.2).isNone) = [] := by
              apply filter_eq_nil_iff.2
              intro y hy hs
              simp only [Bool.and_eq_true, Bool.not_eq_true'] at hs
              rw [htable y hy hs.1] at hs
              cases hs.2
            rw [hnil, nil_append]

end Run

theorem Ascending.sublist {xs ys : List (ℕ × K)} (h : Ascending ys) (hs : xs.Sublist ys) :
    Ascending xs :=
  ⟨h.keys.sublist hs, h.indices.sublist (hs.map _)⟩

theorem Ascending.key_inj {xs : List (ℕ × K)} (h : Ascending xs) {x y : ℕ × K} (hx : x ∈ xs)
    (hy : y ∈ xs) (hk : x.2 = y.2) : x = y := by
  have hnodup : (xs.map (·.2)).Nodup := (pairwise_map.2 h.keys).imp ne_of_lt
  exact inj_on_of_nodup_map hnodup hx hy hk

theorem covered_slot {reads : BatchReads T K V} {lookup : K → T → Option (InternalValue K V)}
    {run : List T} {skip : ℕ → Bool} (hids : IdsApart run)
    (hreads : ∀ t ∈ run, reads.Answers lookup t) {xs : List (ℕ × K)} (hasc : Ascending xs) :
    (∀ x ∈ xs, ((resolveRunBatched reads run skip xs.length xs).covered.filter
        fun a => decide (a.1.1 = x.1)) =
      if (!skip x.1 && (getForKey run x.2).isSome) = true then
        [(x, (getForKey run x.2).bind (lookup x.2))] else []) ∧
    ∀ i, (∀ x ∈ xs, x.1 ≠ i) → ((resolveRunBatched reads run skip xs.length xs).covered.filter
      fun a => decide (a.1.1 = i)) = [] := by
  rw [(resolveRunBatched_spec hids hreads le_rfl hasc.keys).1]
  constructor
  · intro x hx
    rw [filter_map]
    simp only [comp_def]
    rw [filter_comm, Slots.filter_key_eq hasc.indices hx, filter_singleton]
    cases (!skip x.1 && (getForKey run x.2).isSome) <;> rfl
  · intro i hi
    rw [filter_map]
    simp only [comp_def]
    rw [filter_comm, Slots.filter_key_eq_nil hi]
    rfl

structure ReadsLevel (found : K → Option (InternalValue K V)) (s s' : BatchState K V) : Prop where
  answered : ∀ x ∈ s.remaining, s'.results x.1 = found x.2
  others : ∀ i, (∀ x ∈ s.remaining, x.1 ≠ i) → s'.results i = s.results i
  remaining : s'.remaining = s.remaining.filter fun x => (found x.2).isNone

omit [LinearOrder K] in
theorem ReadsLevel.of_results {found : K → Option (InternalValue K V)} {s : BatchState K V}
    {results : BatchResults K V} (hanswered : ∀ x ∈ s.remaining, results x.1 = found x.2)
    (hothers : ∀ i, (∀ x ∈ s.remaining, x.1 ≠ i) → results i = s.results i) :
    ReadsLevel found s ⟨s.remaining.filter fun x => (results x.1).isNone, results⟩ := by
  refine ⟨hanswered, hothers, ?_⟩
  apply filter_congr
  intro x hx
  rw [hanswered x hx]

section Serial0

variable {reads : BatchReads T K V} {lookup : K → T → Option (InternalValue K V)} {seqno : ℕ}

def l0Slot (s : L0State K V) (i : ℕ) : Option (InternalValue K V) × Bool :=
  (s.results i, s.atCeiling i)

def l0Item (seqno : ℕ) (b : Option (InternalValue K V) × Bool)
    (item : Option (InternalValue K V)) : Option (InternalValue K V) × Bool :=
  match item with
  | none => b
  | some item =>
    if b.1.any fun current => decide (item.seqno ≤ current.seqno) then b
    else (some item, if item.seqno + 1 = seqno then true else b.2)

omit [LinearOrder K] in
theorem l0Slot_applyL0 (s : L0State K V) (x : (ℕ × K) × Option (InternalValue K V)) (i : ℕ) :
    l0Slot (applyL0 seqno s x) i =
      if x.1.1 = i then l0Item seqno (l0Slot s i) x.2 else l0Slot s i := by
  unfold applyL0
  cases x.2 with
  | none => simp only [l0Item, ite_self]
  | some item =>
    by_cases hi : x.1.1 = i
    · subst hi
      simp only [l0Item, l0Slot, if_true]
      by_cases hold : (s.results x.1.1).any fun current => decide (item.seqno ≤ current.seqno)
      · simp only [hold, if_true]
      · simp only [hold, Bool.false_eq_true, if_false, update_self]
        split_ifs <;> simp
    · rw [if_neg hi]
      dsimp only
      split_ifs <;> simp [l0Slot, update_of_ne (Ne.symm hi)]

def l0Run (lookup : K → T → Option (InternalValue K V)) (seqno : ℕ) (k : K)
    (b : Option (InternalValue K V) × Bool) (run : List T) : Option (InternalValue K V) × Bool :=
  if b.2 then b else l0Item seqno b ((getForKey run k).bind (lookup k))

theorem l0Slot_run {run : List T} (hids : IdsApart run) (hreads : ∀ t ∈ run, reads.Answers lookup t)
    {remaining : List (ℕ × K)} (hasc : Ascending remaining) (s : L0State K V) :
    (∀ x ∈ remaining, l0Slot (resolveL0Run reads seqno remaining s run) x.1 =
      l0Run lookup seqno x.2 (l0Slot s x.1) run) ∧
    ∀ i, (∀ x ∈ remaining, x.1 ≠ i) →
      l0Slot (resolveL0Run reads seqno remaining s run) i = l0Slot s i := by
  obtain ⟨hin, hout⟩ := covered_slot hids hreads hasc
  have hslot := Slots.foldl_slot _ (fun b x => l0Item seqno b x.2)
    l0Slot_applyL0 (resolveRunBatched reads run s.atCeiling remaining.length remaining).covered s
  constructor
  · intro x hx
    rw [resolveL0Run, hslot, hin x hx, l0Run]
    by_cases hceil : s.atCeiling x.1 = true
    · simp [l0Slot, hceil]
    · rw [Bool.not_eq_true] at hceil
      cases hcover : getForKey run x.2 <;> simp [l0Slot, hceil, l0Item]
  · intro i hi
    rw [resolveL0Run, hslot, hout i hi, foldl_nil]

theorem l0Slot_runs {runs : List (List T)} (hids : ∀ run ∈ runs, IdsApart run)
    (hreads : ∀ run ∈ runs, ∀ t ∈ run, reads.Answers lookup t) {remaining : List (ℕ × K)}
    (hasc : Ascending remaining) (s : L0State K V) :
    (∀ x ∈ remaining, l0Slot (runs.foldl (resolveL0Run reads seqno remaining) s) x.1 =
      runs.foldl (l0Run lookup seqno x.2) (l0Slot s x.1)) ∧
    ∀ i, (∀ x ∈ remaining, x.1 ≠ i) →
      l0Slot (runs.foldl (resolveL0Run reads seqno remaining) s) i = l0Slot s i := by
  induction runs generalizing s with
  | nil => exact ⟨fun _ _ => rfl, fun _ _ => rfl⟩
  | cons run runs ih =>
    obtain ⟨hid, hids⟩ := forall_mem_cons.1 hids
    obtain ⟨hread, hreads⟩ := forall_mem_cons.1 hreads
    obtain ⟨hin, hout⟩ := l0Slot_run hid hread hasc s
    obtain ⟨hin', hout'⟩ := ih hids hreads (resolveL0Run reads seqno remaining s run)
    constructor
    · intro x hx
      rw [foldl_cons, foldl_cons, hin' x hx, hin x hx]
    · intro i hi
      rw [foldl_cons, hout' i hi, hout i hi]

theorem foldl_l0Run {k : K} (runs : List (List T)) (best : Option (InternalValue K V)) :
    (runs.foldl (l0Run lookup seqno k) (best, false)).1 = findInL0 (lookup k) k seqno best runs := by
  have hceiling : ∀ (runs : List (List T)) (best : Option (InternalValue K V)),
      runs.foldl (l0Run lookup seqno k) (best, true) = (best, true) := by
    intro runs best
    induction runs with
    | nil => rfl
    | cons run runs ih =>
      rw [foldl_cons, l0Run, if_pos rfl]
      exact ih
  induction runs generalizing best with
  | nil => rfl
  | cons run runs ih =>
    rw [foldl_cons, findInL0, l0Run, if_neg (by simp)]
    cases (getForKey run k).bind (lookup k) with
    | none => exact ih best
    | some item =>
      simp only [l0Item]
      split_ifs with hold hceil
      · exact ih best
      · rw [hceiling]
      · exact ih (some item)

theorem resolveL0_reads {level : List (List T)} (hids : ∀ run ∈ level, IdsApart run)
    (hreads : ∀ run ∈ level, ∀ t ∈ run, reads.Answers lookup t) {s : BatchState K V}
    (hasc : Ascending s.remaining) (hnone : ∀ x ∈ s.remaining, s.results x.1 = none) :
    ReadsLevel (fun k => findInL0 (lookup k) k seqno none level) s
      (resolveL0 reads seqno level s) := by
  obtain ⟨hin, hout⟩ := l0Slot_runs hids hreads hasc ⟨s.results, fun _ => false⟩
  apply ReadsLevel.of_results
  · intro x hx
    have hslot := congrArg Prod.fst (hin x hx)
    simp only [l0Slot, hnone x hx, foldl_l0Run] at hslot
    exact hslot
  · intro i hi
    exact congrArg Prod.fst (hout i hi)

end Serial0

section SerialDeep

variable {reads : BatchReads T K V} {lookup : K → T → Option (InternalValue K V)}

omit [LinearOrder K] in
theorem results_applyDeep (s : DeepState K V) (x : (ℕ × K) × Option (InternalValue K V)) (i : ℕ) :
    (applyDeep s x).results i = if x.1.1 = i then x.2.or (s.results i) else s.results i := by
  unfold applyDeep
  cases x.2 with
  | none => simp
  | some item =>
    by_cases hi : x.1.1 = i
    · subst hi
      simp
    · simp [update_of_ne (Ne.symm hi), hi]

omit [LinearOrder K] in
theorem coveredMiss_foldl_applyDeep (xs : List ((ℕ × K) × Option (InternalValue K V)))
    (s : DeepState K V) : (xs.foldl applyDeep s).coveredMiss =
      s.coveredMiss ++ (xs.filter fun x => x.2.isNone).map (·.1) := by
  induction xs generalizing s with
  | nil => simp
  | cons x xs ih =>
    rw [foldl_cons, ih]
    rcases x with ⟨x, _ | item⟩ <;> simp [applyDeep]

theorem resolveDeepRun_spec {run : List T} (hids : IdsApart run)
    (hreads : ∀ t ∈ run, reads.Answers lookup t) {s : DeepState K V} (hasc : Ascending s.remaining) :
    (∀ x ∈ s.remaining, (resolveDeepRun reads s run).results x.1 =
      ((getForKey run x.2).bind (lookup x.2)).or (s.results x.1)) ∧
    (∀ i, (∀ x ∈ s.remaining, x.1 ≠ i) → (resolveDeepRun reads s run).results i = s.results i) ∧
    (resolveDeepRun reads s run).remaining =
      s.remaining.filter (fun x => (getForKey run x.2).isNone) ∧
    (resolveDeepRun reads s run).coveredMiss = s.coveredMiss ++ s.remaining.filter
      fun x => (getForKey run x.2).isSome && ((getForKey run x.2).bind (lookup x.2)).isNone := by
  obtain ⟨hin, hout⟩ := covered_slot hids hreads hasc
  obtain ⟨hcov, hnot⟩ := resolveRunBatched_spec hids hreads le_rfl hasc.keys
  have hslot := Slots.foldl_slot _ (fun b x => x.2.or b) results_applyDeep
    (resolveRunBatched reads run (fun _ => false) s.remaining.length s.remaining).covered s
  refine ⟨?_, ?_, ?_, ?_⟩
  · intro x hx
    rw [resolveDeepRun, hslot, hin x hx]
    cases getForKey run x.2 <;> simp
  · intro i hi
    rw [resolveDeepRun, hslot, hout i hi, foldl_nil]
  · rw [resolveDeepRun, hnot]
    simp
  · rw [resolveDeepRun, coveredMiss_foldl_applyDeep, hcov, filter_map, map_map,
      filter_filter]
    simp [comp_def, Bool.and_comm]

theorem resolveDeepRuns_spec {runs : List (List T)} (hids : ∀ run ∈ runs, IdsApart run)
    (hreads : ∀ run ∈ runs, ∀ t ∈ run, reads.Answers lookup t) {s : DeepState K V}
    (hasc : Ascending s.remaining) (hnone : ∀ x ∈ s.remaining, s.results x.1 = none) :
    (∀ x ∈ s.remaining, (runs.foldl (resolveDeepRun reads) s).results x.1 =
      findInCoveringRun (lookup x.2) x.2 runs) ∧
    (∀ i, (∀ x ∈ s.remaining, x.1 ≠ i) →
      (runs.foldl (resolveDeepRun reads) s).results i = s.results i) ∧
    (runs.foldl (resolveDeepRun reads) s).remaining.Sublist s.remaining ∧
    ((runs.foldl (resolveDeepRun reads) s).remaining ++
      (runs.foldl (resolveDeepRun reads) s).coveredMiss).Perm
        ((s.remaining.filter fun x => (findInCoveringRun (lookup x.2) x.2 runs).isNone) ++
          s.coveredMiss) := by
  induction runs generalizing s with
  | nil =>
    refine ⟨hnone, fun _ _ => rfl, List.Sublist.refl _, ?_⟩
    simp [findInCoveringRun]
  | cons run runs ih =>
    obtain ⟨hid, hids⟩ := forall_mem_cons.1 hids
    obtain ⟨hread, hreads⟩ := forall_mem_cons.1 hreads
    obtain ⟨hin, hout, hrem, hmiss⟩ := resolveDeepRun_spec hid hread hasc
    have hsub : (resolveDeepRun reads s run).remaining.Sublist s.remaining := by
      rw [hrem]
      exact filter_sublist
    have hmem : ∀ x, x ∈ (resolveDeepRun reads s run).remaining ↔
        x ∈ s.remaining ∧ getForKey run x.2 = none := by
      intro x
      rw [hrem, mem_filter, Option.isNone_iff_eq_none]
    have hnone' : ∀ x ∈ (resolveDeepRun reads s run).remaining,
        (resolveDeepRun reads s run).results x.1 = none := by
      intro x hx
      obtain ⟨hx, hcover⟩ := (hmem x).1 hx
      rw [hin x hx, hcover, hnone x hx]
      rfl
    obtain ⟨hin', hout', hsub', hperm⟩ := ih hids hreads (hasc.sublist hsub) hnone'
    rw [foldl_cons]
    refine ⟨?_, ?_, hsub'.trans hsub, ?_⟩
    · intro x hx
      rw [findInCoveringRun]
      cases hcover : getForKey run x.2 with
      | none => exact hin' x ((hmem x).2 ⟨hx, hcover⟩)
      | some t =>
        -- settled here, and no later run touches the slot
        rw [hout' x.1, hin x hx, hcover, hnone x hx, Option.or_none]
        · rfl
        · intro y hy hidx
          obtain ⟨hy, hcover'⟩ := (hmem y).1 hy
          have hsame := inj_on_of_nodup_map hasc.indices hy hx hidx
          rw [hsame, hcover] at hcover'
          cases hcover'
    · intro i hi
      rw [hout' i fun x hx => hi x ((hmem x).1 hx).1, hout i hi]
    · rw [hrem, hmiss, filter_filter] at hperm
      apply hperm.trans
      have hcases : (s.remaining.filter fun x =>
          (findInCoveringRun (lookup x.2) x.2 (run :: runs)).isNone).Perm
          ((s.remaining.filter fun x => (findInCoveringRun (lookup x.2) x.2 runs).isNone &&
            (getForKey run x.2).isNone) ++ s.remaining.filter fun x =>
              (getForKey run x.2).isSome && ((getForKey run x.2).bind (lookup x.2)).isNone) := by
        apply (filter_append_perm (fun x : ℕ × K => (getForKey run x.2).isNone) _).symm.trans
        rw [filter_filter, filter_filter]
        apply List.Perm.of_eq
        congr 1 <;>
        · apply filter_congr
          intro x _
          rw [findInCoveringRun]
          cases getForKey run x.2 <;> simp
      refine List.Perm.trans ?_ (hcases.symm.append_right _)
      rw [append_assoc]
      exact (perm_append_comm).append_left _

theorem resolveDeep_reads {level : List (List T)} (hids : ∀ run ∈ level, IdsApart run)
    (hreads : ∀ run ∈ level, ∀ t ∈ run, reads.Answers lookup t) {s : BatchState K V}
    (hasc : Ascending s.remaining) (hnone : ∀ x ∈ s.remaining, s.results x.1 = none) :
    ReadsLevel (fun k => findInCoveringRun (lookup k) k level) s (resolveDeep reads level s) := by
  obtain ⟨hin, hout, hsub, hperm⟩ :=
    resolveDeepRuns_spec (s := ⟨s.remaining, [], s.results⟩) hids hreads hasc hnone
  refine ⟨hin, hout, ?_⟩
  rw [append_nil] at hperm
  have hasc' : Ascending (s.remaining.filter
      fun x => (findInCoveringRun (lookup x.2) x.2 level).isNone) :=
    hasc.sublist filter_sublist
  -- a sorted list of the same keys is the same list
  have hunique : ∀ l : List (ℕ × K), (l.Pairwise fun a b => a.2 ≤ b.2) →
      l.Perm (s.remaining.filter fun x => (findInCoveringRun (lookup x.2) x.2 level).isNone) →
      l = s.remaining.filter fun x => (findInCoveringRun (lookup x.2) x.2 level).isNone := by
    intro l hl hp
    apply hp.eq_of_pairwise _ hl (hasc'.keys.imp le_of_lt)
    intro a b ha hb hab hba
    exact hasc'.key_inj (hp.subset ha) hb (le_antisymm hab hba)
  simp only [resolveDeep]
  split_ifs with hempty
  · rw [isEmpty_iff.1 hempty, append_nil] at hperm
    exact hunique _ ((hasc.keys.sublist hsub).imp le_of_lt) hperm
  · have : IsTrans (ℕ × K) fun a b => a.2 ≤ b.2 := ⟨fun _ _ _ => le_trans⟩
    have : Std.Total fun a b : ℕ × K => a.2 ≤ b.2 := ⟨fun _ _ => le_total _ _⟩
    exact hunique _ (pairwise_insertionSort _ _) ((perm_insertionSort _ _).trans hperm)

end SerialDeep

section Chunked

variable {reads : BatchReads T K V} {lookup : K → T → Option (InternalValue K V)} {seqno : ℕ}

omit [LinearOrder K] in
theorem keepHighest_apply (results : BatchResults K V) (x : ℕ × Option (InternalValue K V)) (i : ℕ) :
    keepHighest results x i = if x.1 = i then pickHigher (results i) x.2 else results i := by
  unfold keepHighest
  cases x.2 with
  | none => simp only [pickHigher, ite_self]
  | some item =>
    by_cases hi : x.1 = i
    · subst hi
      simp only [pickHigher, if_true]
      split_ifs
      · rfl
      · rw [update_self]
    · rw [if_neg hi]
      dsimp only
      split_ifs
      · rfl
      · rw [update_of_ne (Ne.symm hi)]

omit [LinearOrder K] in
theorem pickHigher_assoc (a b c : Option (InternalValue K V)) :
    pickHigher (pickHigher a b) c = pickHigher a (pickHigher b c) := by
  rcases c with _ | c
  · rfl
  rcases b with _ | b
  · rfl
  rcases a with _ | a
  · simp only [pickHigher, Option.any_none, Option.any_some, Bool.false_eq_true, if_false]
    split_ifs <;> rfl
  · simp only [pickHigher, Option.any_some, decide_eq_true_eq]
    by_cases hba : b.seqno ≤ a.seqno <;> by_cases hcb : c.seqno ≤ b.seqno <;>
      by_cases hca : c.seqno ≤ a.seqno <;> simp [hba, hcb, hca] <;> omega

omit [LinearOrder K] in
theorem foldl_pickHigher (items : List (Option (InternalValue K V)))
    (best : Option (InternalValue K V)) :
    items.foldl pickHigher best = pickHigher best (items.foldl pickHigher none) := by
  induction items generalizing best with
  | nil => rfl
  | cons item items ih =>
    have hnone : pickHigher none item = item := by cases item <;> rfl
    rw [foldl_cons, foldl_cons, ih, ih (pickHigher none item), hnone, pickHigher_assoc]

def taskItems (tasks : List ((K → Option (InternalValue K V)) × List (ℕ × K))) (i : ℕ) :
    List (Option (InternalValue K V)) :=
  tasks.flatMap fun task => (task.2.filter fun y => decide (y.1 = i)).map fun y => task.1 y.2

omit [LinearOrder K] in
theorem taskItems_append (tasks tasks' : List ((K → Option (InternalValue K V)) × List (ℕ × K)))
    (i : ℕ) : taskItems (tasks ++ tasks') i = taskItems tasks i ++ taskItems tasks' i :=
  flatMap_append

omit [LinearOrder K] in
theorem taskItems_eq_nil {tasks : List ((K → Option (InternalValue K V)) × List (ℕ × K))} {i : ℕ}
    (h : ∀ task ∈ tasks, ∀ y ∈ task.2, y.1 ≠ i) : taskItems tasks i = [] := by
  apply flatMap_eq_nil_iff.2
  intro task htask
  rw [Slots.filter_key_eq_nil (h task htask)]
  rfl

omit [LinearOrder K] in
theorem resolveLevelChunked_slot (tasks : List ((K → Option (InternalValue K V)) × List (ℕ × K)))
    (s : BatchState K V) (i : ℕ) :
    (resolveLevelChunked tasks s).results i = (taskItems tasks i).foldl pickHigher (s.results i) := by
  have hslot := Slots.foldl_slot (fun results : BatchResults K V => results)
    (fun b x => pickHigher b x.2) keepHighest_apply
    (tasks.flatMap fun task => task.2.map fun x => (x.1, task.1 x.2)) s.results i
  have hitems : taskItems tasks i = ((tasks.flatMap fun task => task.2.map
      fun x => (x.1, task.1 x.2)).filter fun x => decide (x.1 = i)).map (·.2) := by
    simp only [taskItems, filter_flatMap, map_flatMap, filter_map, map_map]
    rfl
  rw [hitems, foldl_map]
  exact hslot

theorem planRunBlockTasks_spec {run : List T} (hids : IdsApart run)
    (hreads : ∀ t ∈ run, reads.Answers lookup t) {fuel : ℕ} {xs : List (ℕ × K)}
    (hfuel : xs.length ≤ fuel) (hasc : Ascending xs) :
    (∀ x ∈ xs, (taskItems (planRunBlockTasks reads run fuel xs) x.1).foldl pickHigher none =
      (getForKey run x.2).bind (lookup x.2)) ∧
    ∀ i, (∀ x ∈ xs, x.1 ≠ i) → taskItems (planRunBlockTasks reads run fuel xs) i = [] := by
  induction fuel generalizing xs with
  | zero =>
    obtain rfl := length_eq_zero_iff.1 (Nat.le_zero.1 hfuel)
    exact ⟨nofun, fun _ _ => rfl⟩
  | succ fuel ih =>
    cases xs with
    | nil => exact ⟨nofun, fun _ _ => rfl⟩
    | cons x xs =>
      rw [planRunBlockTasks]
      cases ht : getForKey run x.2 with
      | none =>
        obtain ⟨hin, hout⟩ := ih (Nat.le_of_succ_le_succ hfuel)
          (hasc.sublist (sublist_cons_self x xs))
        constructor
        · refine forall_mem_cons.2 ⟨?_, hin⟩
          rw [ht, hout x.1]
          · rfl
          · intro y hy hidx
            exact (nodup_cons.1 hasc.indices).1 (mem_map.2 ⟨y, hy, hidx⟩)
        · intro i hi
          exact hout i (forall_mem_cons.1 hi).2
      | some t =>
        have hmem := (getForKey_some ht).1
        obtain ⟨front, rest, hgather, hsplit, hlen, htable⟩ :=
          gatherBatch_cons (fun _ => false) hids xs rfl ht
        simp only [Bool.not_false, filter_true] at hgather
        simp only [hgather]
        rw [hsplit] at hasc ⊢
        obtain ⟨hin, hout⟩ := ih (le_trans hlen (Nat.le_of_succ_le_succ hfuel))
          (hasc.sublist (sublist_append_right _ _))
        have hfront := hasc.sublist (sublist_append_left front rest)
        have hplanned := (hreads t hmem).planned front
        have hanswer := (hreads t hmem).planBlockTasks front hfront
          fun y hy => (getForKey_some (htable y hy rfl)).2
        have happart : ∀ y ∈ front, ∀ z ∈ rest, z.1 ≠ y.1 := by
          intro y hy z hz
          have hnodup := hasc.indices
          rw [map_append] at hnodup
          exact fun he => (nodup_append.1 hnodup).2.2 y.1 (mem_map_of_mem hy) z.1
            (mem_map_of_mem hz) he.symm
        constructor
        · intro y hy
          rw [taskItems_append]
          rcases mem_append.1 hy with hy | hy
          · rw [hout y.1 (happart y hy), append_nil, htable y hy rfl]
            exact hanswer y hy
          · rw [taskItems_eq_nil, nil_append]
            · exact hin y hy
            · intro task htask z hz
              exact (happart z (hplanned task htask hz) y hy).symm
        · intro i hi
          rw [taskItems_append, hout i fun z hz => hi z (mem_append_right _ hz),
            append_nil]
          apply taskItems_eq_nil
          intro task htask z hz
          exact hi z (mem_append_left _ (hplanned task htask hz))

def highestOfRuns (lookup : K → T → Option (InternalValue K V)) (k : K) (level : List (List T)) :
    Option (InternalValue K V) :=
  level.foldl (fun best run => pickHigher best ((getForKey run k).bind (lookup k))) none

theorem resolveLevelChunked_reads {level : List (List T)} (hids : ∀ run ∈ level, IdsApart run)
    (hreads : ∀ run ∈ level, ∀ t ∈ run, reads.Answers lookup t) {s : BatchState K V}
    (hasc : Ascending s.remaining) (hnone : ∀ x ∈ s.remaining, s.results x.1 = none) :
    ReadsLevel (fun k => highestOfRuns lookup k level) s (resolveLevelChunked
      (level.flatMap fun run => planRunBlockTasks reads run s.remaining.length s.remaining) s) := by
  have hslot := resolveLevelChunked_slot
    (level.flatMap fun run => planRunBlockTasks reads run s.remaining.length s.remaining) s
  have hlevel : ∀ (runs : List (List T)), runs ⊆ level → ∀ best,
      (∀ x ∈ s.remaining, (taskItems (runs.flatMap fun run => planRunBlockTasks reads run
        s.remaining.length s.remaining) x.1).foldl pickHigher best =
          runs.foldl (fun best run => pickHigher best ((getForKey run x.2).bind (lookup x.2))) best) ∧
      ∀ i, (∀ x ∈ s.remaining, x.1 ≠ i) → taskItems (runs.flatMap fun run =>
        planRunBlockTasks reads run s.remaining.length s.remaining) i = [] := by
    intro runs
    induction runs with
    | nil => exact fun _ _ => ⟨fun _ _ => rfl, fun _ _ => rfl⟩
    | cons run runs ih =>
      intro hsub best
      obtain ⟨hrun, hsub⟩ := cons_subset.1 hsub
      obtain ⟨hin, hout⟩ := planRunBlockTasks_spec (hids run hrun) (hreads run hrun) le_rfl hasc
      constructor
      · intro x hx
        rw [flatMap_cons, taskItems_append, foldl_append, foldl_cons,
          foldl_pickHigher _ best, hin x hx]
        exact (ih hsub _).1 x hx
      · intro i hi
        rw [flatMap_cons, taskItems_append, hout i hi, (ih hsub best).2 i hi]
        rfl
  apply ReadsLevel.of_results
  · intro x hx
    have hx' := hslot x.1
    rw [hnone x hx, ((hlevel level (List.Subset.refl _)) none).1 x hx] at hx'
    exact hx'
  · intro i hi
    have hi' := hslot i
    rw [((hlevel level (List.Subset.refl _)) none).2 i hi] at hi'
    exact hi'

end Chunked

end LsmTree
