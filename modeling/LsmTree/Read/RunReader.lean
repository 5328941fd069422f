import LsmTree.Merge.MergerOrder
import LsmTree.Version.RunSearch

/-! `RunReader`: the entries of a run within bounds, read from both ends. -/
namespace LsmTree

open List Option Function Nat

variable {K V : Type*} [LinearOrder K]

instance OwnedBounds.decidableHolds (b : OwnedBounds K) (k : K) : Decidable (b.Holds k) :=
  decidable_of_iff (b.contains ⟨k, k⟩ = true) ((contains_iff_holds le_rfl).trans and_self_iff)

def Table.range (b : OwnedBounds K) (t : Table K V) : List (InternalValue K V) :=
  t.entries.filter fun e => b.Holds e.userKey

/-- `lo` and `hi` with their readers, by the direction that uses them first. A reader that is open
is what it has left. -/
structure RunReader (K V : Type*) where
  run : List (Table K V)
  range : OwnedBounds K
  index : Direction → ℕ
  reader : Direction → Option (List (InternalValue K V))
  initialized : Direction → Bool

def Direction.bump : Direction → ℕ → ℕ
  | .forward, lo => lo + 1
  | .backward, hi => hi - 1

namespace RunReader

def culled (run : List (Table K V)) (range : OwnedBounds K) (lo hi : ℕ) : RunReader K V where
  run := run
  range := range
  index
    | .forward => lo
    | .backward => hi
  reader _ := none
  initialized
    | .forward => false
    | .backward => decide (hi ≤ lo)

/-- `new_cmp`; without a table that overlaps there is no reader. -/
def newCmp (run : List (Table K V)) (range : OwnedBounds K) : Option (RunReader K V) :=
  (range.rangeOverlapIndexes run).map fun i => culled run range i.1 i.2

def reseek (range : OwnedBounds K) (r : RunReader K V) : RunReader K V :=
  match range.rangeOverlapIndexes r.run with
  | some (lo, hi) => culled r.run range lo hi
  | none => ⟨r.run, range, fun _ => 0, fun _ => none, fun _ => true⟩

def setReader (r : RunReader K V) (d : Direction) (es : Option (List (InternalValue K V))) :
    RunReader K V := { r with reader := update r.reader d es }

/-- `ensure_lo_initialized`, `ensure_hi_initialized`; `none` where the table does not exist, which
is a panic. -/
def ensureInitialized (d : Direction) (r : RunReader K V) : Option (RunReader K V) :=
  if r.initialized d then some r
  else r.run[r.index d]?.map fun t =>
    { r.setReader d (some (t.range r.range)) with
      initialized := update r.initialized d true }

def bump (r : RunReader K V) (d : Direction) : RunReader K V :=
  { r.setReader d none with index := update r.index d (d.bump (r.index d)) }

def advanceLoop (d : Direction) :
    ℕ → RunReader K V → Option (Option (InternalValue K V) × RunReader K V)
  | 0, _ => none
  | fuel + 1, r =>
    match r.reader d with
    | some es =>
      match d.pull es with
      | some (e, rest) => some (some e, r.setReader d (some rest))
      | none =>
        -- `hi -= 1` must not underflow
        if d = .backward ∧ r.index d = 0 then none
        else if (r.bump d).index .forward < (r.bump d).index .backward then
          r.run[(r.bump d).index d]?.bind fun t =>
            advanceLoop d fuel ((r.bump d).setReader d (some t.entries))
        else advanceLoop d fuel (r.bump d)
    | none =>
      (r.ensureInitialized d.opposite).map fun r =>
        match (r.reader d.opposite).bind d.pull with
        | some (e, rest) => (some e, r.setReader d.opposite (some rest))
        | none => (none, r)

def advance (d : Direction) (r : RunReader K V) : Option (Option (InternalValue K V) × RunReader K V) :=
  (r.ensureInitialized d).bind (advanceLoop d (r.run.length + 2))

def next : RunReader K V → Option (Option (InternalValue K V) × RunReader K V) := advance .forward

def nextBack : RunReader K V → Option (Option (InternalValue K V) × RunReader K V) :=
  advance .backward

inductive Call (K : Type*) where
  | next
  | nextBack
  | reseek (range : OwnedBounds K)

/-- The answers to a sequence of calls; a `reseek` has none. -/
def answers : List (Call K) → RunReader K V → Option (List (Option (InternalValue K V)))
  | [], _ => some []
  | .next :: calls, r => r.next.bind fun x => (answers calls x.2).map (x.1 :: ·)
  | .nextBack :: calls, r => r.nextBack.bind fun x => (answers calls x.2).map (x.1 :: ·)
  | .reseek range :: calls, r => answers calls (r.reseek range)

def entriesIn (run : List (Table K V)) (b : OwnedBounds K) : List (InternalValue K V) :=
  run.flatMap (·.range b)

def expected (run : List (Table K V)) :
    List (Call K) → List (InternalValue K V) → List (Option (InternalValue K V))
  | [], _ => []
  | .next :: calls, es => es.head? :: expected run calls es.tail
  | .nextBack :: calls, es => es.getLast? :: expected run calls es.dropLast
  | .reseek range :: calls, _ => expected run calls (entriesIn run range)

section Ends

variable {r r' : RunReader K V} {d : Direction}

def part (r : RunReader K V) (d : Direction) : List (InternalValue K V) :=
  if r.initialized d then (r.reader d).getD [] else (r.run[r.index d]?.map (·.range r.range)).getD []

def middle (r : RunReader K V) : List (InternalValue K V) :=
  ((r.run.take (r.index .backward)).drop (r.index .forward + 1)).flatMap Table.entries

def left (r : RunReader K V) : List (InternalValue K V) :=
  r.part .forward ++ r.middle ++ r.part .backward

def Done (r : RunReader K V) (d : Direction) : Prop := r.initialized d = true ∧ r.reader d = none

/-- While both directions have a table of their own, that of the front comes first; a direction
that has none left has met the other. -/
structure Invariant (r : RunReader K V) : Prop where
  unopened : ∀ d, r.initialized d = false → r.index d < r.run.length ∧ r.reader d = none
  bound : r.index .backward ≤ r.run.length
  apart : r.index .forward < r.index .backward ∨ ∃ d, r.Done d
  met : ∀ d, r.Done d → r.index .backward ≤ r.index .forward
  positive : r.Done .backward ∨ 0 < r.index .backward

theorem view_left (r : RunReader K V) (d : Direction) :
    d.view r.left = d.view (r.part d) ++ d.view r.middle ++ d.view (r.part d.opposite) := by
  cases d <;> simp [left, Direction.view, Direction.opposite]

omit [LinearOrder K] in
theorem middle_nil (h : r.index .backward ≤ r.index .forward + 1) : r.middle = [] := by
  rw [middle, drop_of_length_le (by rw [length_take]; omega)]
  rfl

omit [LinearOrder K] in
theorem middle_bump {t : Table K V} (hb : r.index .backward ≤ r.run.length)
    (hlt : (r.bump d).index .forward < (r.bump d).index .backward)
    (ht : r.run[(r.bump d).index d]? = some t) :
    d.view r.middle = d.view t.entries ++ d.view (r.bump d).middle := by
  obtain ⟨hi, rfl⟩ := List.getElem?_eq_some_iff.1 ht
  cases d with
  | forward =>
    change r.index .forward + 1 < r.index .backward at hlt
    have hmid : (r.bump .forward).middle =
      ((r.run.take (r.index .backward)).drop (r.index .forward + 1 + 1)).flatMap Table.entries := rfl
    rw [middle, drop_eq_getElem_cons (by rw [length_take]; omega), getElem_take, hmid]
    rfl
  | backward =>
    change r.index .forward < r.index .backward - 1 at hlt
    have hmid : (r.bump .backward).middle =
      ((r.run.take (r.index .backward - 1)).drop (r.index .forward + 1)).flatMap Table.entries := rfl
    obtain ⟨n, hn⟩ : ∃ n, r.index .backward = n + 1 := ⟨r.index .backward - 1, by omega⟩
    rw [hmid, middle, hn, take_succ_eq_append_getElem (by omega), drop_append_of_le_length
      (by rw [length_take]; omega), flatMap_append]
    simp [Direction.view, bump, setReader, Direction.bump, hn]

theorem left_congr (hd : r'.part d = r.part d) (ho : r'.part d.opposite = r.part d.opposite)
    (hm : r'.middle = r.middle) : r'.left = r.left := by
  have hparts : ∀ d', r'.part d' = r.part d' := Direction.forall_of hd ho
  rw [left, left, hparts, hparts, hm]

theorem left_of_done (h : r.Invariant) (hd : r.Done d) : r.left = r.part d.opposite := by
  have hmid := middle_nil ((h.met d hd).trans (le_succ _))
  have hpart : r.part d = [] := by rw [part, if_pos hd.1, hd.2]; rfl
  cases d <;> simp [left, hmid, hpart, Direction.opposite]

theorem ensureInitialized_spec (h : r.Invariant) (d : Direction) :
    ∃ r', r.ensureInitialized d = some r' ∧ r'.Invariant ∧ r'.initialized d = true ∧
      r'.left = r.left ∧ r'.run = r.run ∧ ∀ d', r.Done d' → r'.Done d' := by
  rw [ensureInitialized]
  cases hd : r.initialized d with
  | true => exact ⟨r, rfl, h, hd, rfl, rfl, fun _ h => h⟩
  | false =>
    have hlt := (h.unopened d hd).1
    have hne : ∀ d', r.Done d' → d' ≠ d := by
      rintro d' hdone rfl
      rw [hdone.1] at hd
      cases hd
    have hdone : ∀ d', d' ≠ d → (Done { r.setReader d (some (r.run[r.index d].range r.range)) with
        initialized := update r.initialized d true } d' ↔ r.Done d') := fun d' hne => by
      simp [Done, setReader, hne]
    rw [getElem?_eq_getElem hlt]
    refine ⟨_, rfl, ⟨fun d' hd' => ?_, h.bound, ?_, fun d' hd' => ?_,
      h.positive.imp_left fun hd' => (hdone _ (hne _ hd')).2 hd'⟩, update_self .., ?_, rfl,
      fun d' hd' => (hdone d' (hne d' hd')).2 hd'⟩
    · by_cases heq : d' = d
      · subst heq
        simp at hd'
      · simpa [setReader, heq] using h.unopened d' (by simpa [heq] using hd')
    · exact h.apart.imp_right fun ⟨d', hd'⟩ => ⟨d', (hdone d' (hne d' hd')).2 hd'⟩
    · by_cases heq : d' = d
      · subst heq
        simp [Done, setReader] at hd'
      · exact h.met d' ((hdone d' heq).1 hd')
    · refine left_congr (d := d) ?_ ?_ rfl
      · simp [part, setReader, hd, hlt]
      · simp [part, setReader, Direction.ne_opposite.symm]

omit [LinearOrder K] in
theorem Invariant.setReader (h : r.Invariant) (hopen : (r.reader d).isSome)
    (es : List (InternalValue K V)) : (r.setReader d (some es)).Invariant := by
  have hnot : ¬ r.Done d := fun hd => by simp [hd.2] at hopen
  have hdone : ∀ d', (r.setReader d (some es)).Done d' ↔ r.Done d' := by
    intro d'
    by_cases heq : d' = d
    · subst heq
      exact iff_of_false (by simp [Done, RunReader.setReader]) hnot
    · simp [Done, RunReader.setReader, heq]
  refine ⟨fun d' hd' => ?_, h.bound, ?_, fun d' hd' => h.met d' ((hdone d').1 hd'),
    h.positive.imp_left (hdone _).2⟩
  · obtain ⟨hlt, hnone⟩ := h.unopened d' hd'
    have hne : d' ≠ d := by
      rintro rfl
      simp [hnone] at hopen
    exact ⟨hlt, by simp [RunReader.setReader, hne, hnone]⟩
  · exact h.apart.imp_right fun ⟨d', hd'⟩ => ⟨d', (hdone d').2 hd'⟩

/-- The answer of a call from direction `d`, and what is left after it. -/
def Answers (d : Direction) (r : RunReader K V)
    (x : Option (Option (InternalValue K V) × RunReader K V)) : Prop :=
  ∃ r', x = some ((d.view r.left).head?, r') ∧ r'.Invariant ∧
    d.view r'.left = (d.view r.left).tail ∧ r'.run = r.run

/-- This direction has met the other, whose table may not be open yet. -/
theorem advanceLoop_met {fuel : ℕ} (h : r.Invariant) (hinit : r.initialized d = true)
    (hr : r.reader d = none) : Answers d r (advanceLoop d (fuel + 1) r) := by
  obtain ⟨r', heq, h', hinit', hleft, hrun, hdone⟩ := ensureInitialized_spec h d.opposite
  have hd : r'.Done d := hdone d ⟨hinit, hr⟩
  rw [Answers, advanceLoop, hr]
  simp only
  rw [heq, map_some, ← hleft, left_of_done h' hd, part, if_pos hinit']
  cases ho : r'.reader d.opposite with
  | none => exact ⟨r', by simp, h', by simp [left_of_done h' hd, part, hinit', ho], hrun⟩
  | some es =>
    rw [bind_some]
    cases hp : d.pull es with
    | none =>
      obtain rfl := Direction.pull_eq_none.1 hp
      exact ⟨r', by simp, h', by simp [left_of_done h' hd, part, hinit', ho], hrun⟩
    | some x =>
      have hview := Direction.pull_eq_some hp
      have h'' := h'.setReader (d := d.opposite) (by rw [ho]; rfl) x.2
      have hd'' : (r'.setReader d.opposite (some x.2)).Done d :=
        ⟨hd.1, (update_of_ne Direction.ne_opposite ..).trans hd.2⟩
      refine ⟨_, by rw [getD_some, hview]; rfl, h'', ?_, hrun⟩
      rw [left_of_done h'' hd'', getD_some, hview]
      simp [part, RunReader.setReader, hinit']

omit [LinearOrder K] in
theorem bump_index (r : RunReader K V) (d : Direction) :
    (r.bump d).index .backward ≤ r.index .backward ∧
      (r.index .backward ≤ r.index .forward + 1 ↔
        (r.bump d).index .backward ≤ (r.bump d).index .forward) ∧
      (r.bump d).index .backward - (r.bump d).index .forward =
        r.index .backward - r.index .forward - 1 := by
  cases d <;> simp [bump, Direction.bump, update] <;> omega

section Bump

variable (h : r.Invariant) (hinit : r.initialized d = true)
include h hinit

omit [LinearOrder K] in
theorem bump_unopened {d' : Direction} (hd' : (r.bump d).initialized d' = false) : d' ≠ d ∧
    (r.bump d).index d' < r.run.length ∧ (r.bump d).reader d' = none := by
  have hne : d' ≠ d := by
    rintro rfl
    cases hinit.symm.trans hd'
  exact ⟨hne, by simpa [bump, RunReader.setReader, hne] using h.unopened d' hd'⟩

variable (hr : r.reader d = some [])
include hr

/-- The direction opens the next table. -/
theorem openNext_spec (hlt : (r.bump d).index .forward < (r.bump d).index .backward) :
    ∃ t, r.run[(r.bump d).index d]? = some t ∧
      ((r.bump d).setReader d (some t.entries)).Invariant ∧
      d.view ((r.bump d).setReader d (some t.entries)).left = d.view r.left := by
  obtain ⟨hle, hmeets, -⟩ := bump_index r d
  have hbound := h.bound
  have hget : (r.bump d).index d < r.run.length := by
    cases d
    · exact hlt.trans_le (hle.trans hbound)
    · simp only [bump, Direction.bump, update_self] at hlt ⊢
      omega
  refine ⟨_, getElem?_eq_getElem hget, ⟨fun d' hd' => ?_, hle.trans hbound, Or.inl hlt,
    fun d' hd' => ?_, Or.inr (zero_lt_of_lt hlt)⟩, ?_⟩
  · obtain ⟨hne, hlt', hnone⟩ := bump_unopened h hinit hd'
    exact ⟨hlt', (update_of_ne hne ..).trans hnone⟩
  · have hne : d' ≠ d := by
      rintro rfl
      simp [Done, RunReader.setReader] at hd'
    have hmet := h.met d' (by simpa [Done, RunReader.setReader, bump, hne] using hd')
    exact absurd hlt (not_lt.2 (hmeets.1 (hmet.trans (le_succ _))))
  · have hpart : r.part d = [] := by rw [part, if_pos hinit, hr]; rfl
    rw [view_left, view_left, hpart, middle_bump hbound hlt (getElem?_eq_getElem hget)]
    simp [part, middle, RunReader.setReader, bump, hinit, Direction.ne_opposite.symm]

/-- No table lies between this direction and the other. -/
theorem bump_spec (hmet : (r.bump d).index .backward ≤ (r.bump d).index .forward) :
    (r.bump d).Invariant ∧ (r.bump d).left = r.left := by
  obtain ⟨hle, hmeets, -⟩ := bump_index r d
  have hdone : (r.bump d).Done d := ⟨hinit, update_self ..⟩
  have hpositive : (r.bump d).Done .backward ∨ 0 < (r.bump d).index .backward := by
    cases d
    · exact h.positive
    · exact Or.inl hdone
  refine ⟨⟨fun d' hd' => (bump_unopened h hinit hd').2, hle.trans h.bound, Or.inr ⟨d, hdone⟩,
    fun _ _ => hmet, hpositive⟩, left_congr (d := d) ?_ ?_ ?_⟩
  · rw [part, part, if_pos hdone.1, if_pos hinit, hdone.2, hr]
    rfl
  · simp [part, bump, RunReader.setReader, Direction.ne_opposite.symm]
  · rw [middle_nil (hmeets.2 hmet), middle_nil (hmet.trans (le_succ _))]

end Bump

theorem advanceLoop_spec {fuel : ℕ} (h : r.Invariant) (hinit : r.initialized d = true)
    (hfuel : r.index .backward - r.index .forward + 1 < fuel ∨ r.reader d = none ∧ 0 < fuel) :
    Answers d r (advanceLoop d fuel r) := by
  induction fuel generalizing r with
  | zero => omega
  | succ fuel ih =>
    cases hr : r.reader d with
    | none => exact advanceLoop_met h hinit hr
    | some es =>
      rw [advanceLoop, hr]
      dsimp only
      cases hp : d.pull es with
      | some x =>
        have hpart : r.part d = es := by rw [part, if_pos hinit, hr]; rfl
        refine ⟨_, ?_, h.setReader (by rw [hr]; rfl) x.2, ?_, rfl⟩
        · rw [view_left, hpart, Direction.pull_eq_some hp]
          rfl
        · rw [view_left, view_left, hpart, Direction.pull_eq_some hp]
          simp [part, middle, RunReader.setReader, hinit, Direction.ne_opposite.symm]
      | none =>
        obtain rfl := Direction.pull_eq_none.1 hp
        have hindex := (bump_index r d).2.2
        have hfuel' : r.index .backward - r.index .forward < fuel := by
          rcases hfuel with hfuel | ⟨hnone, -⟩
          · omega
          · cases hr.symm.trans hnone
        have hpositive : ¬ (d = .backward ∧ r.index d = 0) := by
          rintro ⟨rfl, hzero⟩
          rcases h.positive with hdone | hpos
          · cases hr.symm.trans hdone.2
          · omega
        rw [if_neg hpositive]
        split_ifs with hlt
        · obtain ⟨t, ht, h', hleft⟩ := openNext_spec h hinit hr hlt
          rw [ht, bind_some, Answers, ← hleft]
          refine ih h' hinit (Or.inl ?_)
          change (r.bump d).index .backward - (r.bump d).index .forward + 1 < fuel
          omega
        · obtain ⟨h', hleft⟩ := bump_spec h hinit hr (not_lt.1 hlt)
          rw [Answers, ← hleft]
          exact ih h' hinit (Or.inr ⟨update_self .., by omega⟩)

theorem advance_spec (h : r.Invariant) (d : Direction) :
    Answers d r (r.advance d) := by
  obtain ⟨r₁, heq, h₁, hinit, hleft, hrun, -⟩ := ensureInitialized_spec h d
  have hbound := h₁.bound
  rw [hrun] at hbound
  obtain ⟨r', heq', h', hleft', hrun'⟩ :=
    @advanceLoop_spec K V _ r₁ d (r.run.length + 2) h₁ hinit (Or.inl (by omega))
  rw [hleft] at heq' hleft'
  exact ⟨r', by rw [advance, heq]; exact heq', h', hleft', hrun'.trans hrun⟩

end Ends

section Window

variable {run : List (Table K V)} {b : OwnedBounds K} {lo hi : ℕ}

theorem range_nil (hwf : ∀ t ∈ run, t.WF) {t : Table K V} (ht : t ∈ run) (hr : ¬ b.Reaches t) :
    t.range b = [] := by
  refine filter_eq_nil_iff.2 fun e he hholds => hr ?_
  have hk : b.Holds e.userKey := of_decide_eq_true hholds
  have hvalid : Valid t := (hwf t ht).valid
  obtain ⟨hmin, hmax⟩ := (hwf t ht).bounds e he
  exact (OwnedBounds.reaches_iff_meets hvalid ⟨_, hk⟩).2 ⟨_, hmin, hmax, hk⟩

theorem range_eq_entries {first t last : Table K V} (hwf : t.WF) (hrf : b.Reaches first)
    (hrl : b.Reaches last) (hlo : first.keyRange.max < t.keyRange.min)
    (hhi : t.keyRange.max < last.keyRange.min) : t.range b = t.entries := by
  refine filter_eq_self.2 fun e he => decide_eq_true ?_
  obtain ⟨hmin, hmax⟩ := hwf.bounds e he
  have hstart := hrf.1
  have hstop := hrl.2
  rw [OwnedBounds.endsBefore] at hstart
  rw [OwnedBounds.startsWithin] at hstop
  constructor
  · cases hb : b.start with
    | unbounded => trivial
    | included key =>
      simp only [hb, decide_eq_false_iff_not, not_lt] at hstart
      exact (hstart.trans hlo.le).trans hmin
    | excluded key =>
      simp only [hb, decide_eq_false_iff_not, not_le] at hstart
      exact (hstart.trans hlo).trans_le hmin
  · cases hb : b.stop with
    | unbounded => trivial
    | included key =>
      simp only [hb, decide_eq_true_eq] at hstop
      exact (hmax.trans hhi.le).trans hstop
    | excluded key =>
      simp only [hb, decide_eq_true_eq] at hstop
      exact (hmax.trans_lt hhi).trans hstop

theorem culled_spec (hs : SortedRun run) (hwf : ∀ t ∈ run, t.WF)
    (h : b.rangeOverlapIndexes run = some (lo, hi)) :
    (culled run b lo hi).Invariant ∧ (culled run b lo hi).left = entriesIn run b := by
  obtain ⟨hle, hlt, hreach⟩ := (OwnedBounds.rangeOverlapIndexes_some hs fun t ht => (hwf t ht).valid).1 h
  have hnil : ∀ i t, run[i]? = some t → ¬ (lo ≤ i ∧ i ≤ hi) → t.range b = [] := fun i t hi hout =>
    range_nil hwf (mem_of_getElem? hi) fun hr => hout ((hreach i t hi).1 hr)
  have hbefore : (run.take lo).flatMap (·.range b) = [] := by
    refine flatMap_eq_nil_iff.2 fun t ht => ?_
    obtain ⟨i, hi, rfl⟩ := mem_take_iff_getElem.1 ht
    exact hnil i _ (getElem?_eq_getElem _) (by omega)
  have hafter : (run.drop (hi + 1)).flatMap (·.range b) = [] := by
    refine flatMap_eq_nil_iff.2 fun t ht => ?_
    obtain ⟨i, hi', rfl⟩ := mem_drop_iff_getElem.1 ht
    exact hnil _ _ (getElem?_eq_getElem _) (by omega)
  have hfront : entriesIn run b = run[lo].range b ++ (run.drop (lo + 1)).flatMap (·.range b) := by
    rw [entriesIn]
    conv_lhs => rw [← take_append_drop lo run, flatMap_append, hbefore, nil_append,
      drop_eq_getElem_cons (hle.trans_lt hlt), flatMap_cons]
  constructor
  · refine ⟨fun d hd => ?_, hlt.le, ?_, ?_, ?_⟩
    · cases d
      · exact ⟨hle.trans_lt hlt, rfl⟩
      · exact ⟨hlt, rfl⟩
    · rcases hle.eq_or_lt with heq | hlt
      · exact Or.inr ⟨.backward, decide_eq_true heq.ge, rfl⟩
      · exact Or.inl hlt
    · rintro (_ | _) ⟨hd, -⟩
      · cases hd
      · exact of_decide_eq_true hd
    · rcases hle.eq_or_lt with heq | hlt
      · exact Or.inl ⟨decide_eq_true heq.ge, rfl⟩
      · exact Or.inr (zero_lt_of_lt hlt)
  · rw [hfront]
    have hpart : (culled run b lo hi).part .forward = run[lo].range b := by
      simp [part, culled, hle.trans_lt hlt]
    rw [left, hpart, append_assoc]
    congr 1
    rcases hle.eq_or_lt with rfl | hlohi
    · rw [hafter, middle_nil (le_succ lo)]
      simp [part, culled]
    · have hpart' : (culled run b lo hi).part .backward = run[hi].range b := by
        simp [part, culled, hlt, not_le.2 hlohi]
      have hmid : ((run.take hi).drop (lo + 1)).flatMap (·.range b) =
          ((run.take hi).drop (lo + 1)).flatMap Table.entries := by
        refine flatMap_congr fun t ht => ?_
        obtain ⟨i, hi', rfl⟩ := mem_drop_iff_getElem.1 ht
        rw [length_take] at hi'
        have hget := pairwise_iff_getElem.1 hs
        rw [getElem_take]
        exact range_eq_entries (hwf _ (getElem_mem _))
          ((hreach lo _ (getElem?_eq_getElem (hle.trans_lt hlt))).2 ⟨le_rfl, hle⟩)
          ((hreach hi _ (getElem?_eq_getElem hlt)).2 ⟨hle, le_rfl⟩)
          (hget lo _ _ _ (by omega)) (hget _ hi _ _ (by omega))
      rw [hpart']
      conv_rhs => rw [← take_append_drop hi run, drop_append_of_le_length
        (by rw [length_take]; omega), flatMap_append, hmid,
        drop_eq_getElem_cons hlt, flatMap_cons, hafter, append_nil]
      rfl

theorem reseek_spec (hs : SortedRun run) (hwf : ∀ t ∈ run, t.WF) {r : RunReader K V}
    (hrun : r.run = run) : (r.reseek b).Invariant ∧ (r.reseek b).left = entriesIn run b ∧
      (r.reseek b).run = run := by
  rw [reseek, hrun]
  cases h : b.rangeOverlapIndexes run with
  | some i => exact ⟨(culled_spec hs hwf h).1, (culled_spec hs hwf h).2, rfl⟩
  | none =>
    have hnone := (OwnedBounds.rangeOverlapIndexes_none hs fun t ht => (hwf t ht).valid).1 h
    refine ⟨⟨nofun, zero_le _, Or.inr ⟨.forward, rfl, rfl⟩, fun _ _ => le_rfl,
      Or.inl ⟨rfl, rfl⟩⟩, ?_, rfl⟩
    rw [entriesIn, flatMap_eq_nil_iff.2 fun t ht => range_nil hwf ht (hnone t ht)]
    rfl

theorem answers_eq (hs : SortedRun run) (hwf : ∀ t ∈ run, t.WF) (calls : List (Call K))
    {r : RunReader K V} (h : r.Invariant) (hrun : r.run = run) :
    answers calls r = some (expected run calls r.left) := by
  induction calls generalizing r with
  | nil => rfl
  | cons call calls ih =>
    cases call with
    | next =>
      obtain ⟨r', heq, h', hleft, hrun'⟩ := advance_spec h .forward
      have hleft' : r'.left = r.left.tail := hleft
      rw [answers, next, heq, bind_some, ih h' (hrun'.trans hrun), hleft']
      rfl
    | nextBack =>
      obtain ⟨r', heq, h', hleft, hrun'⟩ := advance_spec h .backward
      have hleft' : r'.left = r.left.dropLast := by
        rw [← reverse_inj, ← tail_reverse]
        exact hleft
      have hlast : (Direction.backward.view r.left).head? = r.left.getLast? := head?_reverse
      rw [answers, nextBack, heq, bind_some, ih h' (hrun'.trans hrun), hleft', hlast]
      rfl
    | reseek b =>
      obtain ⟨h', hleft, hrun'⟩ := reseek_spec (b := b) hs hwf hrun
      rw [answers, ih h' hrun', hleft]
      rfl

end Window

/-- Over a sorted run of disjoint tables a reader yields the entries within its bounds, from both
ends and in any interleaving of the calls, until it is moved to other bounds; there is no reader
only where there is no such entry. -/
theorem newCmp_answers {run : List (Table K V)} (hs : SortedRun run) (hwf : ∀ t ∈ run, t.WF)
    (b : OwnedBounds K) : (newCmp run b = none → entriesIn run b = []) ∧
      ∀ r, newCmp run b = some r → ∀ calls,
        answers calls r = some (expected run calls (entriesIn run b)) := by
  constructor
  · intro hnone
    have hnone := (OwnedBounds.rangeOverlapIndexes_none hs fun t ht => (hwf t ht).valid).1
      (map_eq_none_iff.1 hnone)
    exact flatMap_eq_nil_iff.2 fun t ht => range_nil hwf ht (hnone t ht)
  · intro r hr calls
    obtain ⟨i, hi, rfl⟩ := map_eq_some_iff.1 hr
    obtain ⟨hinv, hleft⟩ := culled_spec hs hwf hi
    rw [answers_eq hs hwf calls hinv rfl, hleft]

def threeTables : List (Table ℕ ℕ) :=
  [⟨0, ⟨1, 1⟩, [⟨1, 1, .value, 0⟩], []⟩, ⟨1, ⟨2, 3⟩, [⟨2, 1, .value, 0⟩, ⟨3, 1, .value, 0⟩], []⟩,
    ⟨2, ⟨5, 5⟩, [⟨5, 1, .value, 0⟩], []⟩]

theorem threeTables_answers :
    ((newCmp threeTables ⟨.included 3, .unbounded⟩).bind
      (answers [.nextBack, .reseek ⟨.unbounded, .excluded 3⟩, .next, .nextBack, .next])).map
        (·.map (·.map (·.userKey))) = some [some 5, some 1, some 2, none] := by
  have hwf : ∀ t ∈ threeTables, t.WF := by decide
  obtain ⟨r, hr⟩ : ∃ r, newCmp threeTables ⟨.included 3, .unbounded⟩ = some r :=
    isSome_iff_exists.1 (by decide)
  have hanswers := (newCmp_answers (by decide) hwf _).2 r hr
    [.nextBack, .reseek ⟨.unbounded, .excluded 3⟩, .next, .nextBack, .next]
  rw [hr, bind_some, hanswers]
  decide

end RunReader

end LsmTree
