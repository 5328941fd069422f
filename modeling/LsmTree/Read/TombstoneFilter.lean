import LsmTree.Read.MvccStream
import LsmTree.Theory.DoubleEnded

/-! `RangeTombstoneFilter` from both ends. -/
namespace LsmTree

open DoubleEnded List

/-- One direction of the filter. Keys advance along `advances`. -/
structure Sweep (K : Type*) where
  le : RangeTombstone K → RangeTombstone K → Bool
  started : RangeTombstone K → K → Bool
  boundary : RangeTombstone K → K
  expired : K → K → Bool
  sooner : K → K → Bool
  advances : K → K → Prop
  total : ∀ a b, le a b = true ∨ le b a = true
  trans : ∀ a b c, le a b = true → le b c = true → le a c = true
  started_of_le : ∀ a b k, le a b = true → started b k = true → started a k = true
  started_mono : ∀ a k k', advances k k' → started a k = true → started a k' = true
  expired_mono : ∀ b k k', advances k k' → expired b k = true → expired b k' = true
  expired_of_sooner : ∀ b b' k, sooner b' b = false → expired b' k = true → expired b k = true
  sooner_asymm : ∀ b b', sooner b b' = true → sooner b' b = false
  sooner_trans : ∀ b b' b'', sooner b' b = false → sooner b'' b' = false → sooner b'' b = false

namespace Sweep

variable {K : Type*} [LinearOrder K]

/-- By `start` ascending, `seqno` descending, `end` ascending; a tombstone is active from its
start until its end. -/
def forward : Sweep K where
  le a b := toLex (a.start, toLex (OrderDual.toDual a.seqno, a.stop)) ≤
    toLex (b.start, toLex (OrderDual.toDual b.seqno, b.stop))
  started rt k := rt.start ≤ k
  boundary rt := rt.stop
  expired stop k := stop ≤ k
  sooner a b := a < b
  advances k k' := k ≤ k'
  total a b := by simpa using le_total _ _
  trans a b c := by simpa using le_trans
  started_of_le a b k h hb := by
    have hle := (Prod.Lex.le_iff'.1 (of_decide_eq_true h)).1
    exact decide_eq_true (hle.trans (of_decide_eq_true hb))
  started_mono a k k' hk h := decide_eq_true ((of_decide_eq_true h).trans hk)
  expired_mono b k k' hk h := decide_eq_true ((of_decide_eq_true h).trans hk)
  expired_of_sooner b b' k h hb :=
    decide_eq_true ((not_lt.1 (of_decide_eq_false h)).trans (of_decide_eq_true hb))
  sooner_asymm b b' h := decide_eq_false (not_lt.2 (of_decide_eq_true h).le)
  sooner_trans b b' b'' h h' :=
    decide_eq_false (not_lt.2
      ((not_lt.1 (of_decide_eq_false h)).trans (not_lt.1 (of_decide_eq_false h'))))

/-- By `end` descending, `seqno` descending, `start` ascending; a tombstone is active below its
end until its start is passed. -/
def reverse : Sweep K where
  le a b := toLex (OrderDual.toDual a.stop, toLex (OrderDual.toDual a.seqno, a.start)) ≤
    toLex (OrderDual.toDual b.stop, toLex (OrderDual.toDual b.seqno, b.start))
  started rt k := k < rt.stop
  boundary rt := rt.start
  expired start k := k < start
  sooner a b := b < a
  advances k k' := k' ≤ k
  total a b := by simpa using le_total _ _
  trans a b c := by simpa using le_trans
  started_of_le a b k h hb := by
    have hle : b.stop ≤ a.stop := (Prod.Lex.le_iff'.1 (of_decide_eq_true h)).1
    exact decide_eq_true ((of_decide_eq_true hb).trans_le hle)
  started_mono a k k' hk h := decide_eq_true (hk.trans_lt (of_decide_eq_true h))
  expired_mono b k k' hk h := decide_eq_true (hk.trans_lt (of_decide_eq_true h))
  expired_of_sooner b b' k h hb :=
    decide_eq_true ((of_decide_eq_true hb).trans_le (not_lt.1 (of_decide_eq_false h)))
  sooner_asymm b b' h := decide_eq_false (not_lt.2 (of_decide_eq_true h).le)
  sooner_trans b b' b'' h h' :=
    decide_eq_false (not_lt.2
      ((not_lt.1 (of_decide_eq_false h')).trans (not_lt.1 (of_decide_eq_false h))))

end Sweep

/-- `ActiveTombstoneSet`, `ActiveTombstoneSetReverse`: the active seqnos, and the expiry queue of
bounds, ids and seqnos. -/
structure ActiveTombstoneSet (K : Type*) where
  seqnos : List ℕ
  pendingExpiry : List (K × ℕ × ℕ)
  nextId : ℕ
  deriving DecidableEq, Repr

namespace ActiveTombstoneSet

variable {K : Type*}

def empty : ActiveTombstoneSet K := ⟨[], [], 0⟩

variable (s : Sweep K) (set : ActiveTombstoneSet K)

/-- A newer entry of the queue goes in front of those with an equal bound. -/
def activate (rt : RangeTombstone K) (cutoff : ℕ) : ActiveTombstoneSet K :=
  if rt.visibleAt cutoff then
    { seqnos := rt.seqno :: set.seqnos
      pendingExpiry := set.pendingExpiry.takeWhile (fun x => s.sooner x.1 (s.boundary rt)) ++
        (s.boundary rt, set.nextId, rt.seqno) ::
          set.pendingExpiry.dropWhile (fun x => s.sooner x.1 (s.boundary rt))
      nextId := set.nextId + 1 }
  else set

/-- Takes expired entries off the queue. An entry without a matching activation is a panic. -/
def expireFrom (k : K) : List (K × ℕ × ℕ) → List ℕ → Option (List (K × ℕ × ℕ) × List ℕ)
  | [], seqnos => some ([], seqnos)
  | x :: queue, seqnos =>
    if s.expired x.1 k then
      if x.2.2 ∈ seqnos then expireFrom k queue (seqnos.erase x.2.2) else none
    else some (x :: queue, seqnos)

def expireUntil (k : K) : Option (ActiveTombstoneSet K) :=
  (expireFrom s k set.pendingExpiry set.seqnos).map fun r =>
    { set with pendingExpiry := r.1, seqnos := r.2 }

def maxActiveSeqno : Option ℕ := set.seqnos.max?

def isSuppressed (seqno : ℕ) : Bool := set.maxActiveSeqno.any fun m => seqno < m

end ActiveTombstoneSet

/-- One end of the filter: tombstones with the cutoffs of their sources, a cursor, and the active
ones. -/
structure SweepState (K : Type*) where
  tombstones : List (RangeTombstone K × ℕ)
  idx : ℕ
  active : ActiveTombstoneSet K
  initialized : Bool

namespace SweepState

variable {K : Type*} (s : Sweep K)

def activateFrom (k : K) : List (RangeTombstone K × ℕ) → ℕ → ActiveTombstoneSet K →
    ℕ × ActiveTombstoneSet K
  | [], idx, active => (idx, active)
  | rt :: rts, idx, active =>
    if s.started rt.1 k then activateFrom k rts (idx + 1) (active.activate s rt.1 rt.2)
    else (idx, active)

/-- `fwd_activate_up_to`, `rev_activate_up_to` -/
def activateUpTo (k : K) (st : SweepState K) : SweepState K :=
  let r := activateFrom s k (st.tombstones.drop st.idx) st.idx st.active
  { st with idx := r.1, active := r.2 }

def visit (k : K) (st : SweepState K) : Option (SweepState K) :=
  let st := st.activateUpTo s k
  (st.active.expireUntil s k).map fun active => { st with active }

/-- `ensure_fwd_initialized`, and the sort of `ensure_rev_initialized`. -/
def ensureSorted (rts : List (RangeTombstone K × ℕ)) (st : SweepState K) : SweepState K :=
  if st.initialized then st
  else { st with
    tombstones := rts.insertionSort fun a b => s.le a.1 b.1 = true
    initialized := true }

end SweepState

structure TombstoneFilter (I K : Type*) where
  inner : I
  fwd : SweepState K
  rev : SweepState K

namespace TombstoneFilter

variable {I K V : Type*} [LinearOrder K]

def new (inner : I) (tombstones : List (RangeTombstone K × ℕ)) : TombstoneFilter I K :=
  ⟨inner, ⟨tombstones, 0, .empty, false⟩, ⟨[], 0, .empty, false⟩⟩

def ensureFwdInitialized (f : TombstoneFilter I K) : TombstoneFilter I K :=
  { f with fwd := f.fwd.ensureSorted .forward f.fwd.tombstones }

/-- The reverse list starts from the sorted forward one. -/
def ensureRevInitialized (f : TombstoneFilter I K) : TombstoneFilter I K :=
  if f.rev.initialized then f
  else
    let f := f.ensureFwdInitialized
    { f with rev := f.rev.ensureSorted .reverse f.fwd.tombstones }

section Loop

variable [Iter I (InternalValue K V)]

/-- Pulls from an end until an entry is not suppressed. -/
def pullFrom (e : End) (s : Sweep K) : ℕ → I → SweepState K →
    Option (InternalValue K V) × I × SweepState K
  | 0, inner, st => (none, inner, st)
  | fuel + 1, inner, st =>
    match pull e inner with
    | (none, inner) => (none, inner, st)
    | (some item, inner) =>
      match st.visit s item.userKey with
      | none => (none, inner, st)
      | some st =>
        if st.active.isSuppressed item.seqno then pullFrom e s fuel inner st
        else (some item, inner, st)

instance : Iter (TombstoneFilter I K) (InternalValue K V) where
  next f :=
    let f := f.ensureFwdInitialized
    let r := pullFrom .front .forward (Iter.bound f.inner + 1) f.inner f.fwd
    (r.1, { f with inner := r.2.1, fwd := r.2.2 })
  nextBack f :=
    let f := f.ensureRevInitialized
    let r := pullFrom .back .reverse (Iter.bound f.inner + 1) f.inner f.rev
    (r.1, { f with inner := r.2.1, rev := r.2.2 })
  bound f := Iter.bound f.inner

end Loop

end TombstoneFilter

namespace ActiveTombstoneSet

variable {K : Type*} {s : Sweep K} {set : ActiveTombstoneSet K}

def Queued (set : ActiveTombstoneSet K) (b : K) (n : ℕ) : Prop :=
  ∃ id, (b, id, n) ∈ set.pendingExpiry

/-- The queue is in the order of expiry, and the active seqnos are those in the queue. -/
structure Good (s : Sweep K) (set : ActiveTombstoneSet K) : Prop where
  sorted : set.pendingExpiry.Pairwise fun x y => s.sooner y.1 x.1 = false
  matched : set.seqnos.Perm (set.pendingExpiry.map (·.2.2))

theorem good_empty : Good s (empty : ActiveTombstoneSet K) := ⟨List.Pairwise.nil, List.Perm.nil⟩

theorem isSuppressed_iff (h : Good s set) (n : ℕ) :
    set.isSuppressed n = true ↔ ∃ b m, set.Queued b m ∧ n < m := by
  have hqueued : ∀ m, m ∈ set.seqnos ↔ ∃ b, set.Queued b m := by
    intro m
    rw [h.matched.mem_iff, mem_map]
    constructor
    · rintro ⟨⟨b, id, _⟩, hx, rfl⟩
      exact ⟨b, id, hx⟩
    · rintro ⟨b, id, hx⟩
      exact ⟨_, hx, rfl⟩
  unfold isSuppressed maxActiveSeqno
  cases hmax : set.seqnos.max? with
  | none =>
    rw [max?_eq_none_iff] at hmax
    simp only [Option.any_none, Bool.false_eq_true, false_iff]
    rintro ⟨b, m, hb, -⟩
    have hm := (hqueued m).2 ⟨b, hb⟩
    rw [hmax] at hm
    cases hm
  | some top =>
    obtain ⟨htop, hle⟩ := max?_eq_some_iff.1 hmax
    simp only [Option.any_some, decide_eq_true_eq]
    constructor
    · intro hn
      obtain ⟨b, hb⟩ := (hqueued top).1 htop
      exact ⟨b, top, hb, hn⟩
    · rintro ⟨b, m, hb, hn⟩
      exact hn.trans_le (hle m ((hqueued m).2 ⟨b, hb⟩))

theorem Good.activate (h : Good s set) (rt : RangeTombstone K) (cutoff : ℕ) :
    Good s (set.activate s rt cutoff) := by
  unfold ActiveTombstoneSet.activate
  split
  case isFalse => exact h
  case isTrue =>
    have hsplit : set.pendingExpiry.takeWhile (fun x => s.sooner x.1 (s.boundary rt)) ++
        set.pendingExpiry.dropWhile (fun x => s.sooner x.1 (s.boundary rt)) = set.pendingExpiry :=
      takeWhile_append_dropWhile
    have hsorted := h.sorted
    rw [← hsplit, pairwise_append] at hsorted
    obtain ⟨hfront, hback, hcross⟩ := hsorted
    refine ⟨pairwise_append.2 ⟨hfront, pairwise_cons.2 ⟨?_, hback⟩, ?_⟩, ?_⟩
    · -- what is left of the queue expires no sooner than the new entry
      cases hdrop : set.pendingExpiry.dropWhile (fun x => s.sooner x.1 (s.boundary rt)) with
      | nil => exact fun y hy => nomatch hy
      | cons x queue =>
        have hx : s.sooner x.1 (s.boundary rt) = false := by
          have := head_dropWhile_not (fun x : K × ℕ × ℕ => s.sooner x.1 (s.boundary rt))
            (by rw [hdrop]; exact cons_ne_nil x queue)
          simpa only [hdrop, head_cons] using this
        rw [hdrop] at hback
        refine forall_mem_cons.2 ⟨hx, fun y hy => ?_⟩
        exact s.sooner_trans _ _ _ hx ((pairwise_cons.1 hback).1 y hy)
    · intro x hx
      refine forall_mem_cons.2 ⟨s.sooner_asymm _ _ ?_, hcross x hx⟩
      exact mem_takeWhile_imp (p := fun x : K × ℕ × ℕ => s.sooner x.1 (s.boundary rt)) hx
    · rw [map_append, map_cons]
      refine (h.matched.cons rt.seqno).trans ?_
      rw [← hsplit, map_append, hsplit]
      exact perm_middle.symm

theorem activate_queued (rt : RangeTombstone K) (cutoff : ℕ) (b : K) (n : ℕ) :
    (set.activate s rt cutoff).Queued b n ↔
      set.Queued b n ∨ (rt.visibleAt cutoff = true ∧ s.boundary rt = b ∧ rt.seqno = n) := by
  unfold ActiveTombstoneSet.activate
  by_cases hv : rt.visibleAt cutoff = true
  · have hmem : ∀ x, x ∈ set.pendingExpiry ↔
        x ∈ set.pendingExpiry.takeWhile (fun x => s.sooner x.1 (s.boundary rt)) ∨
          x ∈ set.pendingExpiry.dropWhile (fun x => s.sooner x.1 (s.boundary rt)) := fun x => by
      rw [← mem_append, takeWhile_append_dropWhile]
    simp only [Queued, hv, if_true, mem_append, mem_cons, hmem, Prod.mk.injEq, true_and]
    constructor
    · rintro ⟨id, hin | ⟨rfl, -, rfl⟩ | hin⟩
      · exact Or.inl ⟨id, Or.inl hin⟩
      · exact Or.inr ⟨rfl, rfl⟩
      · exact Or.inl ⟨id, Or.inr hin⟩
    · rintro (⟨id, hin | hin⟩ | ⟨rfl, rfl⟩)
      · exact ⟨id, Or.inl hin⟩
      · exact ⟨id, Or.inr (Or.inr hin)⟩
      · exact ⟨set.nextId, Or.inr (Or.inl ⟨rfl, rfl, rfl⟩)⟩
  · simp [hv]

theorem expireFrom_spec (k : K) {queue : List (K × ℕ × ℕ)} {seqnos : List ℕ}
    (hsorted : queue.Pairwise fun x y => s.sooner y.1 x.1 = false)
    (hmatched : seqnos.Perm (queue.map (·.2.2))) :
    ∃ left, expireFrom s k queue seqnos = some (queue.filter (!s.expired ·.1 k), left) ∧
      left.Perm ((queue.filter (!s.expired ·.1 k)).map (·.2.2)) := by
  induction queue generalizing seqnos with
  | nil => exact ⟨seqnos, rfl, hmatched⟩
  | cons x queue ih =>
    obtain ⟨hx, hqueue⟩ := pairwise_cons.1 hsorted
    rw [expireFrom]
    by_cases hexp : s.expired x.1 k = true
    · obtain ⟨hmem, hrest⟩ := cons_perm_iff_perm_erase.1 hmatched.symm
      obtain ⟨left, hleft, hperm⟩ := ih hqueue hrest.symm
      rw [if_pos hexp, if_pos hmem, filter_cons_of_neg (by simpa using hexp)]
      exact ⟨left, hleft, hperm⟩
    · -- nothing behind an entry expires before it
      have hall : (x :: queue).filter (!s.expired ·.1 k) = x :: queue := by
        refine filter_eq_self.2 (forall_mem_cons.2 ⟨by simpa using hexp, fun y hy => ?_⟩)
        by_contra hy'
        exact hexp (s.expired_of_sooner _ _ _ (hx y hy) (by simpa using hy'))
      rw [if_neg hexp, hall]
      exact ⟨seqnos, rfl, hmatched⟩

theorem Good.expireUntil (h : Good s set) (k : K) :
    ∃ set', set.expireUntil s k = some set' ∧ Good s set' ∧
      ∀ b n, set'.Queued b n ↔ set.Queued b n ∧ s.expired b k = false := by
  obtain ⟨left, hleft, hperm⟩ := expireFrom_spec k h.sorted h.matched
  refine ⟨_, by rw [ActiveTombstoneSet.expireUntil, hleft]; rfl, ⟨h.sorted.filter _, hperm⟩, ?_⟩
  intro b n
  simp only [Queued, mem_filter, Bool.not_eq_true']
  constructor
  · rintro ⟨id, hin, hexp⟩
    exact ⟨⟨id, hin⟩, hexp⟩
  · rintro ⟨⟨id, hin⟩, hexp⟩
    exact ⟨id, hin, hexp⟩

end ActiveTombstoneSet

namespace SweepState

variable {K : Type*} {s : Sweep K} {st : SweepState K} {k : K} {last : Option K}

theorem activateFrom_spec (k : K) (rts : List (RangeTombstone K × ℕ)) (idx : ℕ)
    {active : ActiveTombstoneSet K} (h : active.Good s) :
    (activateFrom s k rts idx active).1 = idx + (rts.takeWhile (s.started ·.1 k)).length ∧
      (activateFrom s k rts idx active).2.Good s ∧
      ∀ b n, (activateFrom s k rts idx active).2.Queued b n ↔ active.Queued b n ∨
        ∃ p ∈ rts.takeWhile (s.started ·.1 k),
          p.1.visibleAt p.2 = true ∧ s.boundary p.1 = b ∧ p.1.seqno = n := by
  induction rts generalizing idx active with
  | nil => exact ⟨rfl, h, by simp [activateFrom]⟩
  | cons rt rts ih =>
    rw [activateFrom]
    by_cases hstart : s.started rt.1 k = true
    · obtain ⟨hidx, hgood, hqueued⟩ := ih (idx + 1) (h.activate rt.1 rt.2)
      rw [if_pos hstart, takeWhile_cons_of_pos
        (p := fun x : RangeTombstone K × ℕ => s.started x.1 k) hstart]
      refine ⟨?_, hgood, fun b n => ?_⟩
      · rw [hidx, length_cons]
        omega
      · rw [hqueued, ActiveTombstoneSet.activate_queued, or_assoc]
        simp
    · rw [if_neg hstart, takeWhile_cons_of_neg
        (p := fun x : RangeTombstone K × ℕ => s.started x.1 k) hstart]
      exact ⟨rfl, h, by simp⟩

structure Swept (s : Sweep K) (st : SweepState K) (last : Option K) : Prop where
  good : st.active.Good s
  started : ∀ p ∈ st.tombstones.take st.idx, ∃ k ∈ last, s.started p.1 k = true
  queued : ∀ b n, st.active.Queued b n ↔ ∃ p ∈ st.tombstones.take st.idx,
    p.1.visibleAt p.2 = true ∧ s.boundary p.1 = b ∧ p.1.seqno = n ∧
      ∀ k ∈ last, s.expired b k = false

def starting (s : Sweep K) (k : K) (st : SweepState K) : List (RangeTombstone K × ℕ) :=
  (st.tombstones.drop st.idx).takeWhile (s.started ·.1 k)

theorem take_starting (k : K) (st : SweepState K) :
    st.tombstones.take (st.idx + (st.starting s k).length) =
      st.tombstones.take st.idx ++ st.starting s k := by
  rw [take_add]
  congr 1
  exact (prefix_iff_eq_take.1 (List.takeWhile_prefix _)).symm

theorem Swept.mem_started (h : Swept s st last)
    (hsorted : st.tombstones.Pairwise fun a b => s.le a.1 b.1 = true)
    (hlast : ∀ l ∈ last, s.advances l k) (p : RangeTombstone K × ℕ) :
    p ∈ st.tombstones.take st.idx ++ st.starting s k ↔
      p ∈ st.tombstones ∧ s.started p.1 k = true := by
  have hfilter : st.starting s k = (st.tombstones.drop st.idx).filter (s.started ·.1 k) := by
    refine SortedSearch.takeWhile_eq_filter ((hsorted.sublist (drop_sublist _ _)).imp ?_)
    exact fun hle hb => s.started_of_le _ _ _ hle hb
  rw [hfilter, mem_append, mem_filter]
  conv_rhs => rw [← take_append_drop st.idx st.tombstones, mem_append]
  constructor
  · rintro (hp | ⟨hp, hstart⟩)
    · obtain ⟨l, hl, hstart⟩ := h.started p hp
      exact ⟨Or.inl hp, s.started_mono _ _ _ (hlast l hl) hstart⟩
    · exact ⟨Or.inr hp, hstart⟩
  · rintro ⟨hp | hp, hstart⟩
    · exact Or.inl hp
    · exact Or.inr ⟨hp, hstart⟩

theorem Swept.visit (h : Swept s st last)
    (hsorted : st.tombstones.Pairwise fun a b => s.le a.1 b.1 = true)
    (hlast : ∀ l ∈ last, s.advances l k) :
    ∃ st', st.visit s k = some st' ∧ st'.tombstones = st.tombstones ∧
      st'.initialized = st.initialized ∧ Swept s st' (some k) ∧
      ∀ n, st'.active.isSuppressed n = true ↔ ∃ p ∈ st.tombstones, p.1.visibleAt p.2 = true ∧
        s.started p.1 k = true ∧ s.expired (s.boundary p.1) k = false ∧ n < p.1.seqno := by
  obtain ⟨hidx, hgood, hqueued⟩ :=
    activateFrom_spec k (st.tombstones.drop st.idx) st.idx h.good
  obtain ⟨active, hactive, hgood', hqueued'⟩ := hgood.expireUntil k
  have hmem := h.mem_started hsorted hlast
  have hnow : ∀ b n, active.Queued b n ↔ ∃ p ∈ st.tombstones.take st.idx ++ st.starting s k,
      p.1.visibleAt p.2 = true ∧ s.boundary p.1 = b ∧ p.1.seqno = n ∧ s.expired b k = false := by
    intro b n
    rw [hqueued', hqueued, h.queued]
    constructor
    · rintro ⟨⟨p, hp, hv, hb, hn, -⟩ | ⟨p, hp, hv, hb, hn⟩, hexp⟩
      · exact ⟨p, mem_append_left _ hp, hv, hb, hn, hexp⟩
      · exact ⟨p, mem_append_right _ hp, hv, hb, hn, hexp⟩
    · rintro ⟨p, hp, hv, hb, hn, hexp⟩
      refine ⟨?_, hexp⟩
      rcases mem_append.1 hp with hp | hp
      · refine Or.inl ⟨p, hp, hv, hb, hn, fun l hl => ?_⟩
        -- what had expired before has expired now
        by_contra hl'
        rw [s.expired_mono _ _ _ (hlast l hl) (by simpa using hl')] at hexp
        cases hexp
      · exact Or.inr ⟨p, hp, hv, hb, hn⟩
  have htake := st.take_starting (s := s) k
  rw [starting, ← hidx] at htake
  refine ⟨{ st with
    idx := (activateFrom s k (st.tombstones.drop st.idx) st.idx st.active).1
    active := active }, ?_, rfl, rfl, ⟨hgood', ?_, ?_⟩, ?_⟩
  · rw [SweepState.visit, activateUpTo, hactive]
    rfl
  · intro p hp
    rw [htake] at hp
    exact ⟨k, rfl, ((hmem p).1 hp).2⟩
  · intro b n
    rw [hnow, htake]
    simp [starting]
  · intro n
    rw [ActiveTombstoneSet.isSuppressed_iff hgood']
    constructor
    · rintro ⟨b, m, hq, hn⟩
      obtain ⟨p, hp, hv, rfl, rfl, hexp⟩ := (hnow b m).1 hq
      exact ⟨p, ((hmem p).1 hp).1, hv, ((hmem p).1 hp).2, hexp, hn⟩
    · rintro ⟨p, hp, hv, hstart, hexp, hn⟩
      exact ⟨_, _, (hnow _ _).2 ⟨p, (hmem p).2 ⟨hp, hstart⟩, hv, rfl, rfl, hexp⟩, hn⟩

end SweepState

/-- Deleted by a tombstone that its source's cutoff lets see. -/
def suppressedBy {K V : Type*} [LinearOrder K] (rts : List (RangeTombstone K × ℕ))
    (e : InternalValue K V) : Bool :=
  rts.any fun p => p.1.shouldSuppress e.userKey e.seqno p.2

/-- A direction whose active tombstones are those that contain the key, pulled from its end. -/
structure Sweep.Follows {K : Type*} [LinearOrder K] (V : Type*) (s : Sweep K) (e : End) : Prop where
  contains : ∀ rt k, rt.contains k = true ↔
    s.started rt k = true ∧ s.expired (s.boundary rt) k = false
  advances : ∀ {l : List (InternalValue K V)} {a : InternalValue K V}
    {l' : List (InternalValue K V)}, l.Pairwise (fun a b => a.userKey ≤ b.userKey) →
      pull e l = (some a, l') → ∀ x ∈ l', s.advances a.userKey x.userKey

namespace Sweep

variable {K V : Type*} [LinearOrder K]

theorem forward_follows : (forward : Sweep K).Follows V .front where
  contains rt k := by simp [RangeTombstone.contains, forward]
  advances {l a l'} hs hpull := by
    cases l with
    | nil => cases hpull
    | cons b l =>
      cases hpull
      exact (pairwise_cons.1 hs).1

theorem reverse_follows : (reverse : Sweep K).Follows V .back where
  contains rt k := by
    simp [RangeTombstone.contains, reverse, and_comm]
  advances {l a l'} hs hpull := by
    rcases eq_nil_or_concat' l with rfl | ⟨l, b, rfl⟩
    · cases hpull
    · have hpull' : (pull .back (l ++ [b])) = (some b, l) := by
        simp [pull, Iter.nextBack]
      rw [hpull'] at hpull
      cases hpull
      exact fun x hx => (pairwise_append.1 hs).2.2 x hx _ (by simp)

end Sweep

namespace TombstoneFilter

variable {I K V : Type*} [LinearOrder K]

variable {rts : List (RangeTombstone K × ℕ)}

theorem suppressedBy_perm {rts' : List (RangeTombstone K × ℕ)} (h : rts.Perm rts')
    (e : InternalValue K V) : suppressedBy rts e = suppressedBy rts' e := by
  rw [Bool.eq_iff_iff, suppressedBy, suppressedBy, any_eq_true, any_eq_true]
  exact ⟨fun ⟨p, hp, hs⟩ => ⟨p, h.mem_iff.1 hp, hs⟩, fun ⟨p, hp, hs⟩ => ⟨p, h.mem_iff.2 hp, hs⟩⟩

/-- An end of the filter, once its tombstones are sorted, with the items still between the ends. -/
structure Ready (s : Sweep K) (all : List (RangeTombstone K × ℕ)) (st : SweepState K)
    (l : List (InternalValue K V)) : Prop where
  perm : st.tombstones.Perm all
  sorted : st.tombstones.Pairwise fun a b => s.le a.1 b.1 = true
  swept : ∃ last, st.Swept s last ∧ ∀ k ∈ last, ∀ x ∈ l, s.advances k x.userKey

variable {s : Sweep K} {all : List (RangeTombstone K × ℕ)} {st : SweepState K}
  {l : List (InternalValue K V)}

omit [LinearOrder K] in
theorem Ready.sublist {l' : List (InternalValue K V)} (h : Ready s all st l) (hsub : l'.Sublist l) :
    Ready s all st l' := by
  obtain ⟨last, hswept, hlast⟩ := h.swept
  exact ⟨h.perm, h.sorted, last, hswept, fun k hk x hx => hlast k hk x (hsub.subset hx)⟩

section Loop

variable [Iter I (InternalValue K V)] {R : I → List (InternalValue K V) → Prop} {e : End}
  {s : Sweep K} {all : List (RangeTombstone K × ℕ)} {st : SweepState K} {inner : I}
  {l : List (InternalValue K V)}

theorem Ready.visit (hs : s.Follows V e) (h : Ready s all st l)
    {a : InternalValue K V} (ha : a ∈ l) :
    ∃ st', st.visit s a.userKey = some st' ∧ st'.initialized = st.initialized ∧
      st'.active.isSuppressed a.seqno = suppressedBy all a ∧
      ∀ l' : List (InternalValue K V), (∀ x ∈ l', s.advances a.userKey x.userKey) →
        Ready s all st' l' := by
  obtain ⟨last, hswept, hlast⟩ := h.swept
  obtain ⟨st', hvisit, hrts, hinit, hswept', hsupp⟩ :=
    hswept.visit h.sorted fun k hk => hlast k hk a ha
  refine ⟨st', hvisit, hinit, ?_, fun l' hl' => ⟨hrts ▸ h.perm, hrts ▸ h.sorted, some a.userKey,
    hswept', ?_⟩⟩
  · rw [← suppressedBy_perm h.perm, Bool.eq_iff_iff, hsupp, suppressedBy, any_eq_true]
    refine exists_congr fun p => and_congr_right fun _ => ?_
    simp only [RangeTombstone.shouldSuppress, Bool.and_eq_true, hs.contains, decide_eq_true_eq]
    tauto
  · intro k hk x hx
    cases hk
    exact hl' x hx

theorem pullFrom_spec (hR : Yields R) (hs : s.Follows V e) {fuel : ℕ} (hl : R inner l)
    (hsorted : l.Pairwise fun a b => a.userKey ≤ b.userKey) (h : Ready s all st l)
    (hfuel : l.length < fuel) :
    ∃ l', (pullFrom e s fuel inner st).1 = (pull e (l.filter (!suppressedBy all ·))).1 ∧
      R (pullFrom e s fuel inner st).2.1 l' ∧ l'.Sublist l ∧
      l'.filter (!suppressedBy all ·) = (pull e (l.filter (!suppressedBy all ·))).2 ∧
      Ready s all (pullFrom e s fuel inner st).2.2 l' ∧
      (pullFrom e s fuel inner st).2.2.initialized = st.initialized := by
  induction fuel generalizing inner st l with
  | zero => exact absurd hfuel (Nat.not_lt_zero _)
  | succ fuel ih =>
    obtain ⟨hitem, hleft⟩ := hR.pull_eq hl e
    rw [pullFrom]
    by_cases hne : l = []
    · subst hne
      rw [pull_nil] at hitem hleft
      rw [show pull e inner = (none, (pull e inner).2) from Prod.ext hitem rfl]
      refine ⟨[], ?_, hleft, List.Sublist.refl _, ?_, h, rfl⟩ <;> rw [filter_nil, pull_nil]
    · obtain ⟨a, l', hpull, ha, hsub, hlen, hkeep⟩ := exists_pull e hne
      obtain ⟨hpos, hneg⟩ := hkeep (!suppressedBy all ·)
      rw [hpull] at hitem hleft
      dsimp only at hleft
      rw [show pull e inner = (some a, (pull e inner).2) from Prod.ext hitem rfl]
      obtain ⟨st', hvisit, hinit, hsupp, hready⟩ := h.visit hs ha
      have hready' := hready l' (hs.advances hsorted hpull)
      simp only [hvisit, hsupp]
      by_cases hdel : suppressedBy all a = true
      · obtain ⟨l'', hres, hR'', hsub'', hrest, hready'', hinit''⟩ :=
          ih hleft (hsorted.sublist hsub) hready' (by omega)
        rw [if_pos hdel, hneg (by simp [hdel])]
        exact ⟨l'', hres, hR'', hsub''.trans hsub, hrest, hready'', hinit''.trans hinit⟩
      · rw [if_neg hdel, hpos (by simpa using hdel)]
        exact ⟨l', rfl, hleft, hsub, rfl, hready', hinit⟩

end Loop

def Fresh (st : SweepState K) : Prop := st.idx = 0 ∧ st.active = .empty

omit [LinearOrder K] in
theorem ready_ensureSorted (hperm : rts.Perm all)
    (hready : st.initialized = true → Ready s all st l) (hfresh : st.initialized = false → Fresh st) :
    Ready s all (st.ensureSorted s rts) l ∧ (st.ensureSorted s rts).initialized = true := by
  unfold SweepState.ensureSorted
  by_cases hinit : st.initialized = true
  · rw [if_pos hinit]
    exact ⟨hready hinit, hinit⟩
  · rw [if_neg hinit]
    obtain ⟨hidx, hactive⟩ := hfresh (by simpa using hinit)
    have htrans : IsTrans (RangeTombstone K × ℕ) fun a b => s.le a.1 b.1 = true :=
      ⟨fun _ _ _ => s.trans _ _ _⟩
    have htotal : Std.Total fun a b : RangeTombstone K × ℕ => s.le a.1 b.1 = true :=
      ⟨fun _ _ => s.total _ _⟩
    refine ⟨⟨(perm_insertionSort _ _).trans hperm, pairwise_insertionSort _ _, none, ?_,
      nofun⟩, rfl⟩
    refine ⟨hactive ▸ ActiveTombstoneSet.good_empty, ?_, fun b n => ?_⟩
    · simp [hidx]
    · simp [hidx, hactive, ActiveTombstoneSet.Queued, ActiveTombstoneSet.empty]

structure Serves (R : I → List (InternalValue K V) → Prop) (f : TombstoneFilter I K)
    (all : List (RangeTombstone K × ℕ)) (l : List (InternalValue K V)) : Prop where
  inner : R f.inner l
  sorted : l.Pairwise fun a b => a.userKey ≤ b.userKey
  perm : f.fwd.tombstones.Perm all
  fwd : f.fwd.initialized = true → Ready .forward all f.fwd l
  fwdFresh : f.fwd.initialized = false → Fresh f.fwd
  rev : f.rev.initialized = true → Ready .reverse all f.rev l
  revFresh : f.rev.initialized = false → Fresh f.rev

section Serves

variable [Iter I (InternalValue K V)] {R : I → List (InternalValue K V) → Prop}
  {f : TombstoneFilter I K} {all : List (RangeTombstone K × ℕ)} {l : List (InternalValue K V)}

omit [Iter I (InternalValue K V)] in
theorem Serves.ensureFwd (h : Serves R f all l) :
    Serves R f.ensureFwdInitialized all l ∧ f.ensureFwdInitialized.fwd.initialized = true := by
  obtain ⟨hready, hinit⟩ := ready_ensureSorted h.perm h.fwd h.fwdFresh
  refine ⟨⟨h.inner, h.sorted, hready.perm, fun _ => hready, fun hfalse => ?_, h.rev, h.revFresh⟩,
    hinit⟩
  exact absurd (hinit.symm.trans hfalse) (by simp)

omit [Iter I (InternalValue K V)] in
theorem Serves.ensureRev (h : Serves R f all l) :
    Serves R f.ensureRevInitialized all l ∧ f.ensureRevInitialized.rev.initialized = true := by
  unfold ensureRevInitialized
  by_cases hinit : f.rev.initialized = true
  · rw [if_pos hinit]
    exact ⟨h, hinit⟩
  · rw [if_neg hinit]
    obtain ⟨h', -⟩ := h.ensureFwd
    obtain ⟨hready, hrev⟩ := ready_ensureSorted h'.perm h'.rev h'.revFresh
    refine ⟨⟨h'.inner, h'.sorted, h'.perm, h'.fwd, h'.fwdFresh, fun _ => hready, fun hfalse => ?_⟩,
      hrev⟩
    exact absurd (hrev.symm.trans hfalse) (by simp)

theorem Serves.next (hR : Yields R) (h : Serves R f all l) :
    (Iter.next f).1 = (l.filter (!suppressedBy all ·)).head? ∧
      ∃ l', l'.filter (!suppressedBy all ·) = (l.filter (!suppressedBy all ·)).tail ∧
        Serves R (Iter.next f).2 all l' := by
  obtain ⟨hf, hinit⟩ := h.ensureFwd
  obtain ⟨l', hitem, hinner, hsub, hrest, hready, hkeep⟩ :=
    pullFrom_spec hR Sweep.forward_follows hf.inner hf.sorted (hf.fwd hinit)
      (Nat.lt_succ_of_le (hR.bound hf.inner))
  refine ⟨hitem, l', hrest, ⟨hinner, hf.sorted.sublist hsub, hready.perm, fun _ => hready, ?_,
    fun hr => (hf.rev hr).sublist hsub, hf.revFresh⟩⟩
  intro hfalse
  exact absurd ((hkeep.trans hinit).symm.trans hfalse) (by simp)

theorem Serves.nextBack (hR : Yields R) (h : Serves R f all l) :
    (Iter.nextBack f).1 = (l.filter (!suppressedBy all ·)).getLast? ∧
      ∃ l', l'.filter (!suppressedBy all ·) = (l.filter (!suppressedBy all ·)).dropLast ∧
        Serves R (Iter.nextBack f).2 all l' := by
  obtain ⟨hf, hinit⟩ := h.ensureRev
  obtain ⟨l', hitem, hinner, hsub, hrest, hready, hkeep⟩ :=
    pullFrom_spec hR Sweep.reverse_follows hf.inner hf.sorted (hf.rev hinit)
      (Nat.lt_succ_of_le (hR.bound hf.inner))
  refine ⟨hitem, l', hrest, ⟨hinner, hf.sorted.sublist hsub, hf.perm,
    fun hr => (hf.fwd hr).sublist hsub, hf.fwdFresh, fun _ => hready, ?_⟩⟩
  intro hfalse
  exact absurd ((hkeep.trans hinit).symm.trans hfalse) (by simp)

theorem yields (hR : Yields R) (all : List (RangeTombstone K × ℕ)) :
    Yields fun (f : TombstoneFilter I K) out =>
      ∃ l, Serves R f all l ∧ l.filter (!suppressedBy all ·) = out where
  next := by
    rintro f _ ⟨l, h, rfl⟩
    obtain ⟨hitem, l', hrest, h'⟩ := h.next hR
    exact ⟨hitem, l', h', hrest⟩
  nextBack := by
    rintro f _ ⟨l, h, rfl⟩
    obtain ⟨hitem, l', hrest, h'⟩ := h.nextBack hR
    exact ⟨hitem, l', h', hrest⟩
  bound := by
    rintro f _ ⟨l, h, rfl⟩
    exact (length_filter_le _ _).trans (hR.bound h.inner)

/-- Over a stream in key order the filter yields, from both ends, what no tombstone deletes. -/
theorem drive_filtered (hR : Yields R) {inner : I} {items : List (InternalValue K V)}
    (hinner : R inner items) (hs : items.Pairwise fun a b => a.userKey ≤ b.userKey)
    (tombstones : List (RangeTombstone K × ℕ)) (calls : List End) :
    drive calls (new inner tombstones) =
      drive calls (items.filter fun e => !tombstones.any fun p =>
        p.1.shouldSuppress e.userKey e.seqno p.2) := by
  refine (yields hR tombstones).drive_eq ⟨items, ?_, rfl⟩ calls
  exact ⟨hinner, hs, List.Perm.refl _, by simp [new], fun _ => ⟨rfl, rfl⟩, by simp [new],
    fun _ => ⟨rfl, rfl⟩⟩

/-- A delete at 5 of the keys 1 to 3 inside one at 3 of the keys 0 to 5, and one not yet visible. -/
def nestedTombstones : List (RangeTombstone ℕ × ℕ) :=
  [(⟨0, 6, 3⟩, 8), (⟨1, 4, 5⟩, 8), (⟨0, 9, 8⟩, 8)]

def nestedItems : List (InternalValue ℕ ℕ) :=
  [⟨0, 2, .value, 0⟩, ⟨1, 4, .value, 1⟩, ⟨4, 4, .value, 2⟩, ⟨5, 1, .value, 3⟩, ⟨6, 1, .value, 4⟩]

theorem nestedItems_driven :
    drive [.back, .front, .back] (new nestedItems nestedTombstones) =
      [some ⟨6, 1, .value, 4⟩, some ⟨4, 4, .value, 2⟩, none] := by
  rw [drive_filtered yields_list rfl (by decide)]
  decide

end Serves

end TombstoneFilter

end LsmTree
