import LsmTree.Read.TombstoneFilter
import LsmTree.Table.DeleteBitmap

/-! The delete bitmap of a columnar segment: the range tombstones below the watermark are swept
along the rows, and the positions they delete are marked. -/
namespace LsmTree

variable {K : Type*} [LinearOrder K]

section Build

/-- `SeqNo::MAX` -/
def seqnoMax : ℕ := 2 ^ 64 - 1

/-- The loop of `build_position_bitmap`. A position takes 32 bits. -/
def markRows (st : SweepState K) (bitmap : DeleteBitmap) (pos : Fin (2 ^ 32)) :
    List (K × ℕ) → Option DeleteBitmap
  | [] => some bitmap
  | row :: rows =>
    (st.visit .forward row.1).bind fun st =>
      let bitmap := if st.active.isSuppressed row.2 then bitmap.insert pos else bitmap
      if h : pos.val + 1 < 2 ^ 32 then markRows st bitmap ⟨pos.val + 1, h⟩ rows else none

/-- The tombstones that every live snapshot sees, in the order of the sweep. -/
def applicable (tombstones : List (RangeTombstone K)) (watermark : ℕ) : List (RangeTombstone K) :=
  (tombstones.filter (·.visibleAt watermark)).insertionSort
    fun a b => (Sweep.forward : Sweep K).le a b = true

def buildPositionBitmap (rows : List (K × ℕ)) (tombstones : List (RangeTombstone K))
    (watermark : ℕ) : Option DeleteBitmap :=
  markRows ⟨(applicable tombstones watermark).map (·, seqnoMax), 0, .empty, true⟩ .empty 0 rows

end Build

section Spec

variable {st : SweepState K} {last : Option K} {rows : List (K × ℕ)}

/-- A tombstone of the sweep covers the row and is newer. -/
def sweepDeletes (rts : List (RangeTombstone K × ℕ)) (row : K × ℕ) : Bool :=
  rts.any fun p => p.1.shouldSuppress row.1 row.2 p.2

theorem visit_row (h : st.Swept .forward last)
    (hsorted : st.tombstones.Pairwise fun a b => (Sweep.forward : Sweep K).le a.1 b.1 = true)
    {row : K × ℕ} (hlast : ∀ k ∈ last, k ≤ row.1) :
    ∃ st', st.visit .forward row.1 = some st' ∧ st'.tombstones = st.tombstones ∧
      st'.Swept .forward (some row.1) ∧
      st'.active.isSuppressed row.2 = sweepDeletes st.tombstones row := by
  obtain ⟨st', hvisit, hrts, -, hswept, hsupp⟩ := h.visit hsorted hlast
  refine ⟨st', hvisit, hrts, hswept, ?_⟩
  rw [Bool.eq_iff_iff, hsupp, sweepDeletes, List.any_eq_true]
  apply exists_congr
  intro p
  apply and_congr_right
  intro _
  simp only [Sweep.forward, RangeTombstone.shouldSuppress, RangeTombstone.contains,
    Bool.and_eq_true, decide_eq_true_eq, decide_eq_false_iff_not, not_le]
  tauto

theorem markRows_spec (h : st.Swept .forward last)
    (hsorted : st.tombstones.Pairwise fun a b => (Sweep.forward : Sweep K).le a.1 b.1 = true)
    (hrows : rows.Pairwise fun a b => a.1 ≤ b.1) (hlast : ∀ k ∈ last, ∀ row ∈ rows, k ≤ row.1)
    (bitmap : DeleteBitmap) (pos : Fin (2 ^ 32)) (hpos : pos.val + rows.length < 2 ^ 32) :
    ∃ marked, markRows st bitmap pos rows = some marked ∧ ∀ p, marked.contains p =
      (bitmap.contains p || decide (pos.val ≤ p) &&
        rows[p - pos.val]?.any (sweepDeletes st.tombstones)) := by
  induction rows generalizing st last bitmap pos with
  | nil => exact ⟨bitmap, rfl, by simp⟩
  | cons row rows ih =>
    obtain ⟨hfirst, hrest⟩ := List.pairwise_cons.1 hrows
    obtain ⟨st', hvisit, hrts, hswept, hsupp⟩ :=
      visit_row h hsorted fun k hk => hlast k hk row List.mem_cons_self
    rw [List.length_cons] at hpos
    have hnext : pos.val + 1 < 2 ^ 32 := by omega
    rw [← hrts] at hsorted
    obtain ⟨marked, hmarked, hcontains⟩ := ih hswept hsorted hrest
      (fun k hk r hr => Option.mem_some.1 hk ▸ hfirst r hr)
      (if st'.active.isSuppressed row.2 then bitmap.insert pos else bitmap) ⟨pos.val + 1, hnext⟩
      (by dsimp only; omega)
    refine ⟨marked, ?_, ?_⟩
    · rw [markRows, hvisit]
      exact (dif_pos hnext).trans hmarked
    · intro p
      rw [hcontains, hrts]
      -- this row's own position, and those of the rows after it
      have hhere : (if st'.active.isSuppressed row.2 then bitmap.insert pos else bitmap).contains p =
          (bitmap.contains p || decide (p = pos.val) && sweepDeletes st.tombstones row) := by
        rw [hsupp]
        cases sweepDeletes st.tombstones row with
        | true => rw [if_pos rfl, DeleteBitmap.contains_insert, Bool.and_true, Bool.or_comm]
        | false => simp
      rw [hhere, Bool.or_assoc]
      congr 1
      rcases lt_trichotomy p pos.val with hlt | heq | hgt
      · simp [hlt.ne, hlt.not_ge, show ¬ pos.val + 1 ≤ p by omega]
      · simp [heq]
      · have hshift : p - pos.val = p - (pos.val + 1) + 1 := by omega
        simp [hgt.ne', hgt.le, show pos.val + 1 ≤ p by omega, hshift]

theorem markRows_none (h : st.Swept .forward last)
    (hsorted : st.tombstones.Pairwise fun a b => (Sweep.forward : Sweep K).le a.1 b.1 = true)
    (hrows : rows.Pairwise fun a b => a.1 ≤ b.1) (hlast : ∀ k ∈ last, ∀ row ∈ rows, k ≤ row.1)
    (bitmap : DeleteBitmap) (pos : Fin (2 ^ 32)) (hpos : 2 ^ 32 ≤ pos.val + rows.length) :
    markRows st bitmap pos rows = none := by
  induction rows generalizing st last bitmap pos with
  | nil => exact absurd hpos (by simp)
  | cons row rows ih =>
    obtain ⟨hfirst, hrest⟩ := List.pairwise_cons.1 hrows
    obtain ⟨st', hvisit, hrts, hswept, -⟩ :=
      visit_row h hsorted fun k hk => hlast k hk row List.mem_cons_self
    rw [markRows, hvisit]
    by_cases hnext : pos.val + 1 < 2 ^ 32
    · refine (dif_pos hnext).trans (ih hswept (hrts ▸ hsorted) hrest ?_ _ _ ?_)
      · exact fun k hk r hr => Option.mem_some.1 hk ▸ hfirst r hr
      · rw [List.length_cons] at hpos
        dsimp only
        omega
    · exact dif_neg hnext

theorem swept_initial (rts : List (RangeTombstone K × ℕ)) :
    SweepState.Swept .forward ⟨rts, 0, .empty, true⟩ none where
  good := ActiveTombstoneSet.good_empty
  started := by simp
  queued b n := by simp [ActiveTombstoneSet.Queued, ActiveTombstoneSet.empty]

theorem applicable_sorted (tombstones : List (RangeTombstone K)) (watermark : ℕ) :
    ((applicable tombstones watermark).map (·, seqnoMax)).Pairwise
      fun a b => (Sweep.forward : Sweep K).le a.1 b.1 = true := by
  have htrans : IsTrans (RangeTombstone K) fun a b => (Sweep.forward : Sweep K).le a b = true :=
    ⟨fun _ _ _ => Sweep.forward.trans _ _ _⟩
  have htotal : Std.Total fun a b : RangeTombstone K => (Sweep.forward : Sweep K).le a b = true :=
    ⟨fun _ _ => Sweep.forward.total _ _⟩
  exact List.pairwise_map.2 (List.pairwise_insertionSort _ _)

theorem sweepDeletes_applicable {tombstones : List (RangeTombstone K)} {watermark : ℕ}
    (hw : watermark ≤ seqnoMax) (row : K × ℕ) :
    sweepDeletes ((applicable tombstones watermark).map (·, seqnoMax)) row =
      tombstones.any fun rt => rt.shouldSuppress row.1 row.2 watermark := by
  rw [Bool.eq_iff_iff, sweepDeletes, List.any_eq_true, List.any_eq_true]
  constructor
  · rintro ⟨p, hp, hdel⟩
    obtain ⟨rt, hrt, rfl⟩ := List.mem_map.1 hp
    obtain ⟨hmem, hvisible⟩ := List.mem_filter.1 ((List.mem_insertionSort _).1 hrt)
    refine ⟨rt, hmem, ?_⟩
    rw [RangeTombstone.shouldSuppress_iff] at hdel ⊢
    exact ⟨of_decide_eq_true hvisible, hdel.2⟩
  · rintro ⟨rt, hmem, hdel⟩
    have hvisible := (RangeTombstone.shouldSuppress_iff.1 hdel).1
    refine ⟨(rt, seqnoMax), List.mem_map_of_mem ((List.mem_insertionSort _).2 ?_), ?_⟩
    · exact List.mem_filter.2 ⟨hmem, decide_eq_true hvisible⟩
    · rw [RangeTombstone.shouldSuppress_iff] at hdel ⊢
      exact ⟨hvisible.trans_le hw, hdel.2⟩

theorem buildPositionBitmap_spec (hrows : rows.Pairwise fun a b => a.1 ≤ b.1)
    (tombstones : List (RangeTombstone K)) {watermark : ℕ} (hw : watermark ≤ seqnoMax) :
    (rows.length < 2 ^ 32 → ∃ bitmap, buildPositionBitmap rows tombstones watermark = some bitmap ∧
      ∀ pos, bitmap.contains pos = rows[pos]?.any fun row =>
        tombstones.any fun rt => rt.shouldSuppress row.1 row.2 watermark) ∧
    (2 ^ 32 ≤ rows.length → buildPositionBitmap rows tombstones watermark = none) := by
  have hswept := swept_initial ((applicable tombstones watermark).map (·, seqnoMax))
  have hsorted := applicable_sorted tombstones watermark
  constructor
  · intro hlen
    obtain ⟨bitmap, hbitmap, hcontains⟩ :=
      markRows_spec hswept hsorted hrows nofun .empty 0 (by simpa using hlen)
    refine ⟨bitmap, hbitmap, fun pos => ?_⟩
    have hdel : sweepDeletes ((applicable tombstones watermark).map (·, seqnoMax)) =
        fun row => tombstones.any fun rt => rt.shouldSuppress row.1 row.2 watermark :=
      funext (sweepDeletes_applicable hw)
    rw [hcontains, hdel]
    simp
  · intro hlen
    exact markRows_none hswept hsorted hrows nofun .empty 0 (by simpa using hlen)

end Spec

end LsmTree
