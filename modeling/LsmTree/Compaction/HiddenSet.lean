import LsmTree.Theory.Reservation
import LsmTree.Theory.Transition

/-! Compaction workers and the hidden set. -/
namespace LsmTree

open Function

abbrev HiddenSet := Finset ℕ

namespace HiddenSet

def hide (set : HiddenSet) (ids : Finset ℕ) : HiddenSet := set ∪ ids

/-- `show` -/
def unhide (set : HiddenSet) (ids : Finset ℕ) : HiddenSet := set \ ids

def shouldDeclineCompaction (set : HiddenSet) (ids : Finset ℕ) : Bool := decide ¬ Disjoint set ids

end HiddenSet

namespace CompactionWorkers

inductive Stage where
  | idle
  /-- `do_compaction` holds the lock and consults the strategy and the space gate -/
  | consulting
  /-- `merge_tables` behind its fail-safe, the lock still held -/
  | merging (ids : Finset ℕ)
  /-- `run_merge_on_read_relocation` after its `hide`, the lock still held -/
  | relocating (ids : Finset ℕ)
  /-- `move_tables` or `drop_tables` behind the fail-safe; they hold the lock to their end -/
  | moving (ids : Finset ℕ)
  /-- `run_tight_space_compaction` after its `hide`; it holds the lock to its end -/
  | slicing (ids : Finset ℕ)
  /-- the inputs are hidden and the lock is released for the merge itself -/
  | working (ids : Finset ℕ)
  /-- the lock is taken again to produce and install the output -/
  | installing (ids : Finset ℕ)
  deriving DecidableEq

namespace Stage

def inputs : Stage → Finset ℕ
  | .idle | .consulting => ∅
  | .merging ids | .relocating ids | .moving ids | .slicing ids | .working ids
  | .installing ids => ids

def hidden : Stage → Finset ℕ
  | .idle | .consulting | .merging _ | .moving _ => ∅
  | .relocating ids | .slicing ids | .working ids | .installing ids => ids

def locked : Stage → Bool
  | .idle | .working _ => false
  | _ => true

end Stage

structure State (W : Type*) where
  hiddenSet : HiddenSet
  lock : Option W
  stage : W → Stage

inductive Event (W : Type*) where
  | consult (w : W)
  /-- nothing to do, an error of the space gate, a stop signal, hidden or missing inputs -/
  | decline (w : W)
  | merge (w : W) (ids : Finset ℕ)
  /-- an error before the inputs are hidden -/
  | abandon (w : W)
  | relocate (w : W)
  | endRelocation (w : W)
  | moveOrDrop (w : W) (ids : Finset ℕ)
  | endMove (w : W)
  | sliceTight (w : W) (ids : Finset ℕ)
  | endSlices (w : W)
  | beginWork (w : W)
  /-- an error, a cancellation or a failed sub-range -/
  | workFails (w : W)
  | workDone (w : W)
  /-- the install with its outcome: a failed finish, produce or install shows the inputs as well -/
  | finish (w : W)

/-- The events with which a worker returns from `do_compaction`. -/
def Event.returns {W : Type*} : Event W → Bool
  | .decline _ | .abandon _ | .endRelocation _ | .endMove _ | .endSlices _ | .workFails _
  | .finish _ => true
  | _ => false

def Event.tightInputs {W : Type*} : Event W → Finset ℕ
  | .sliceTight _ ids => ids
  | _ => ∅

variable {W : Type*} [DecidableEq W]

namespace State

def init : State W := ⟨∅, none, fun _ => .idle⟩

def go (s : State W) (w : W) (stage : Stage) (lock : Option W) (hiddenSet : HiddenSet) : State W :=
  ⟨hiddenSet, lock, update s.stage w stage⟩

def step (s : State W) : Event W → Option (State W)
  | .consult w =>
    if s.stage w = .idle ∧ s.lock = none then some (s.go w .consulting (some w) s.hiddenSet)
    else none
  | .decline w =>
    match s.stage w with
    | .consulting => some (s.go w .idle none s.hiddenSet)
    | _ => none
  | .merge w ids =>
    match s.stage w with
    | .consulting =>
      -- the fail-safe for strategies that pick hidden tables
      if s.hiddenSet.shouldDeclineCompaction ids then none
      else some (s.go w (.merging ids) (some w) s.hiddenSet)
    | _ => none
  | .abandon w =>
    match s.stage w with
    | .merging _ => some (s.go w .idle none s.hiddenSet)
    | _ => none
  | .relocate w =>
    match s.stage w with
    | .merging ids => some (s.go w (.relocating ids) (some w) (s.hiddenSet.hide ids))
    | _ => none
  | .endRelocation w =>
    match s.stage w with
    | .relocating ids => some (s.go w .idle none (s.hiddenSet.unhide ids))
    | _ => none
  | .moveOrDrop w ids =>
    match s.stage w with
    | .consulting =>
      if s.hiddenSet.shouldDeclineCompaction ids then none
      else some (s.go w (.moving ids) (some w) s.hiddenSet)
    | _ => none
  | .endMove w =>
    match s.stage w with
    | .moving _ => some (s.go w .idle none s.hiddenSet)
    | _ => none
  | .sliceTight w ids =>
    match s.stage w with
    -- no fail-safe here
    | .consulting => some (s.go w (.slicing ids) (some w) (s.hiddenSet.hide ids))
    | _ => none
  | .endSlices w =>
    match s.stage w with
    | .slicing ids => some (s.go w .idle none (s.hiddenSet.unhide ids))
    | _ => none
  | .beginWork w =>
    match s.stage w with
    | .merging ids => some (s.go w (.working ids) none (s.hiddenSet.hide ids))
    | _ => none
  | .workFails w =>
    match s.stage w, s.lock with
    | .working ids, none => some (s.go w .idle none (s.hiddenSet.unhide ids))
    | _, _ => none
  | .workDone w =>
    match s.stage w, s.lock with
    | .working ids, none => some (s.go w (.installing ids) (some w) s.hiddenSet)
    | _, _ => none
  | .finish w =>
    match s.stage w with
    | .installing ids => some (s.go w .idle none (s.hiddenSet.unhide ids))
    | _ => none

/-- A tight-space compaction is only started on tables that no other compaction has hidden. -/
def PicksShown (s : State W) (e : Event W) : Prop := Disjoint s.hiddenSet e.tightInputs

instance (s : State W) (e : Event W) : Decidable (s.PicksShown e) :=
  inferInstanceAs (Decidable (Disjoint _ _))

def inFlight (s : State W) (w : W) : Finset ℕ := (s.stage w).inputs

end State

namespace Stage

theorem hidden_or_locked (stage : Stage) :
    stage.hidden = stage.inputs ∨ stage.hidden = ∅ ∧ stage.locked = true := by
  cases stage <;> simp [hidden, inputs, locked]

end Stage

variable {s s' : State W} {e : Event W} {w : W}

/-- One worker holds the lock, the hidden set is what the workers have hidden, and picked inputs are
shown. -/
structure Invariant (s : State W) : Prop where
  lock : ∀ w, (s.stage w).locked = true ↔ s.lock = some w
  hidden : Reservation.Exact (Stage.hidden ∘ s.stage) s.hiddenSet
  picked : ∀ w, Disjoint s.hiddenSet ((s.stage w).inputs \ (s.stage w).hidden)

omit [DecidableEq W] in
theorem init_invariant : Invariant (State.init : State W) where
  lock := by simp [State.init, Stage.locked]
  hidden := Reservation.exact_empty
  picked := by simp [State.init]

namespace Invariant

variable {stage : Stage} {lock : Option W}

theorem go (hi : Invariant s) {hiddenSet : HiddenSet} (hown : s.lock = none ∨ s.lock = some w)
    (hlock : lock = if stage.locked then some w else none)
    (hhidden : Reservation.Exact (update (Stage.hidden ∘ s.stage) w stage.hidden) hiddenSet)
    (hpicked : Disjoint hiddenSet (stage.inputs \ stage.hidden)) :
    Invariant (s.go w stage lock hiddenSet) := by
  have hother : ∀ v, v ≠ w → (s.stage v).locked = false := by
    intro v hv
    rw [Bool.eq_false_iff, Ne, hi.lock]
    rcases hown with h | h <;> rw [h]
    · simp
    · simpa using Ne.symm hv
  refine ⟨fun v => ?_, ?_, fun v => ?_⟩
  · by_cases hv : v = w
    · subst hv
      simp only [State.go, update_self, hlock]
      cases stage.locked <;> simp
    · simp only [State.go, update_of_ne hv, hother v hv, hlock]
      split <;> simp [Ne.symm hv]
  · simp only [State.go]
    rw [comp_update]
    exact hhidden
  · by_cases hv : v = w
    · subst hv
      simpa only [State.go, update_self] using hpicked
    · simp only [State.go, update_of_ne hv]
      rcases (s.stage v).hidden_or_locked with h | h
      · simp [h]
      · rw [hother v hv] at h
        cases h.2

omit [DecidableEq W] in
theorem own (hi : Invariant s) (h : (s.stage w).locked = true) :
    s.lock = none ∨ s.lock = some w := Or.inr ((hi.lock w).1 h)

theorem keep (hi : Invariant s) (hown : s.lock = none ∨ s.lock = some w)
    (hlock : lock = if stage.locked then some w else none)
    (hhidden : stage.hidden = (s.stage w).hidden)
    (hpicked : Disjoint s.hiddenSet (stage.inputs \ stage.hidden)) :
    Invariant (s.go w stage lock s.hiddenSet) := by
  refine hi.go hown hlock ?_ hpicked
  have hsame : update (Stage.hidden ∘ s.stage) w stage.hidden = Stage.hidden ∘ s.stage :=
    update_eq_self_iff.2 hhidden
  rw [hsame]
  exact hi.hidden

variable {ids : Finset ℕ}

theorem hide (hi : Invariant s) (hown : (s.stage w).locked = true)
    (hlock : lock = if stage.locked then some w else none) (hbefore : (s.stage w).hidden = ∅)
    (hinputs : stage.inputs = ids) (hhidden : stage.hidden = ids)
    (hshown : Disjoint s.hiddenSet ids) :
    Invariant (s.go w stage lock (s.hiddenSet.hide ids)) := by
  refine hi.go (hi.own hown) hlock ?_ (by simp [hinputs, hhidden])
  rw [hhidden]
  exact hi.hidden.acquire hbefore hshown

theorem unhide (hi : Invariant s) (hown : s.lock = none ∨ s.lock = some w)
    (hbefore : (s.stage w).hidden = ids) :
    Invariant (s.go w .idle none (s.hiddenSet.unhide ids)) := by
  refine hi.go hown rfl ?_ (by simp [Stage.inputs])
  rw [← hbefore]
  exact hi.hidden.release w

omit [DecidableEq W] in
theorem shown (hi : Invariant s) (h : s.stage w = .merging ids) :
    Disjoint s.hiddenSet ids := by
  simpa [h, Stage.inputs, Stage.hidden] using hi.picked w

/-- The end of a worker that has nothing hidden. -/
theorem leave (hi : Invariant s) (hown : (s.stage w).locked = true)
    (hbefore : (s.stage w).hidden = ∅) : Invariant (s.go w .idle none s.hiddenSet) :=
  hi.keep (hi.own hown) rfl hbefore.symm (by simp [Stage.inputs])

/-- The inputs of a merge, a move or a drop: one that is hidden makes the worker decline. -/
theorem pick (hi : Invariant s) (hst : s.stage w = .consulting) (hlocked : stage.locked = true)
    (hhidden : stage.hidden = ∅) (hinputs : stage.inputs = ids)
    (hshown : ¬ s.hiddenSet.shouldDeclineCompaction ids = true) :
    Invariant (s.go w stage (some w) s.hiddenSet) := by
  refine hi.keep (hi.own (by rw [hst]; rfl)) (by rw [hlocked]; rfl) (by rw [hst, hhidden]; rfl) ?_
  simpa [HiddenSet.shouldDeclineCompaction, hhidden, hinputs] using hshown

theorem step (hi : Invariant s) (hok : s.PicksShown e) (h : s.step e = some s') :
    Invariant s' := by
  -- in every case all branches but one return nothing
  cases e <;> simp only [State.step] at h
  case consult w =>
    split at h <;> cases h
    rename_i hw
    exact hi.keep (Or.inl hw.2) rfl (by rw [hw.1]; rfl) (by simp [Stage.inputs])
  case merge w ids | moveOrDrop w ids =>
    split at h
    case h_1 hst =>
      split at h <;> cases h
      rename_i hshown
      exact hi.pick hst rfl rfl rfl hshown
    case h_2 => cases h
  case decline w | abandon w | endMove w =>
    split at h <;> cases h
    rename_i hst
    exact hi.leave (by rw [hst]; rfl) (by rw [hst]; rfl)
  case sliceTight w ids =>
    split at h <;> cases h
    rename_i hst
    exact hi.hide (by rw [hst]; rfl) rfl (by rw [hst]; rfl) rfl rfl hok
  case relocate w | beginWork w =>
    split at h <;> cases h
    rename_i ids hst
    exact hi.hide (by rw [hst]; rfl) rfl (by rw [hst]; rfl) rfl rfl (hi.shown hst)
  case workDone w =>
    split at h <;> cases h
    rename_i ids hst hfree
    exact hi.keep (Or.inl hfree) rfl (by rw [hst]; rfl) (by simp [Stage.inputs, Stage.hidden])
  case workFails w =>
    split at h <;> cases h
    rename_i ids hst hfree
    exact hi.unhide (Or.inl hfree) (by rw [hst]; rfl)
  case endRelocation w | endSlices w | finish w =>
    split at h <;> cases h
    rename_i ids hst
    exact hi.unhide (hi.own (by rw [hst]; rfl)) (by rw [hst]; rfl)

omit [DecidableEq W] in
theorem disjoint (hi : Invariant s) {v w : W} (hvw : v ≠ w) :
    Disjoint (s.inFlight v) (s.inFlight w) := by
  have hpart : ∀ {u}, (s.stage u).hidden = ∅ → Disjoint s.hiddenSet (s.inFlight u) := by
    intro u hu
    have := hi.picked u
    rwa [hu, Finset.sdiff_empty] at this
  have hsub : ∀ {u}, (s.stage u).hidden = (s.stage u).inputs → s.inFlight u ⊆ s.hiddenSet := by
    intro u hu
    rw [State.inFlight, ← hu]
    exact hi.hidden.subset u
  rcases (s.stage v).hidden_or_locked with hv | ⟨hv, hlv⟩ <;>
    rcases (s.stage w).hidden_or_locked with hw | ⟨hw, hlw⟩
  · have := hi.hidden.disjoint v w hvw
    rwa [comp_apply, comp_apply, hv, hw] at this
  · exact (hpart hw).mono_left (hsub hv)
  · exact ((hpart hv).mono_left (hsub hw)).symm
  · -- both would hold the lock
    have heq := ((hi.lock v).1 hlv).symm.trans ((hi.lock w).1 hlw)
    exact absurd (Option.some.inj heq) hvw

omit [DecidableEq W] in
theorem hidden_eq (hi : Invariant s) (hfree : s.lock = none) (id : ℕ) :
    id ∈ s.hiddenSet ↔ ∃ w, id ∈ s.inFlight w := by
  rw [hi.hidden.mem_iff]
  refine exists_congr fun w => ?_
  rcases (s.stage w).hidden_or_locked with h | ⟨-, h⟩
  · rw [comp_apply, h, State.inFlight]
  · rw [hi.lock, hfree] at h
    cases h

end Invariant

theorem lock_after_return (hr : e.returns = true) (h : s.step e = some s') : s'.lock = none := by
  cases e <;> simp only [Event.returns, Bool.false_eq_true] at hr <;>
    simp only [State.step] at h <;> split at h <;> cases h <;> rfl

/-- In every interleaving of any number of workers whose tight-space compactions pick shown
tables, no two compactions in flight have an input in common, and whenever a worker returns the
hidden tables are exactly the inputs of the compactions still in flight. -/
theorem run_exclusive {events : List (Event W)}
    (hrun : Transition.Run State.step State.PicksShown State.init events s) :
    (∀ v w, v ≠ w → Disjoint (s.inFlight v) (s.inFlight w)) ∧
      ∀ e s', s.PicksShown e → s.step e = some s' → e.returns = true →
        ∀ id, id ∈ s'.hiddenSet ↔ ∃ w, id ∈ s'.inFlight w := by
  have hi : Invariant s :=
    hrun.invariant (fun _ _ _ hs hok hstep => hs.step hok hstep) init_invariant
  exact ⟨fun v w => hi.disjoint, fun e s' hok hstep hr =>
    (hi.step hok hstep).hidden_eq (lock_after_return hr hstep)⟩

section Examples

/-- Worker 0 merges table 7; worker 1 picks it again and is sent to the tight-space path. -/
def tightOverRunning : List (Event ℕ) :=
  [.consult 0, .merge 0 {7, 8}, .beginWork 0, .consult 1, .sliceTight 1 {7}]

theorem tightOverRunning_shares :
    (Transition.exec State.step State.init tightOverRunning).any (fun s =>
      decide ¬ Disjoint (s.inFlight 0) (s.inFlight 1)) = true ∧
    (Transition.exec State.step State.init (tightOverRunning ++ [.endSlices 1])).any (fun s =>
      decide (7 ∈ s.inFlight 0 ∧ 7 ∉ s.hiddenSet)) = true := by
  decide +kernel

/-- A merge and a tight-space compaction of another table, a failed merge and a finished one. -/
def disjointWorkers : List (Event ℕ) :=
  [.consult 0, .merge 0 {7, 8}, .beginWork 0, .consult 1, .sliceTight 1 {9}, .endSlices 1,
    .consult 1, .merge 1 {3}, .beginWork 1, .workFails 1, .workDone 0]

theorem disjointWorkers_exclusive :
    ∃ s, Transition.exec State.step State.init disjointWorkers = some s ∧
      (∀ v w, v ≠ w → Disjoint (s.inFlight v) (s.inFlight w)) ∧
      ∀ e s', s.PicksShown e → s.step e = some s' → e.returns = true →
        ∀ id, id ∈ s'.hiddenSet ↔ ∃ w, id ∈ s'.inFlight w := by
  have hsome : (Transition.exec State.step State.init disjointWorkers).isSome = true := by
    decide +kernel
  have hguard : Transition.Guarded State.step State.PicksShown State.init disjointWorkers := by
    decide +kernel
  obtain ⟨s, hs⟩ := Option.isSome_iff_exists.1 hsome
  exact ⟨s, hs, run_exclusive (Transition.run_of_guarded hguard hs)⟩

end Examples

end CompactionWorkers

end LsmTree
