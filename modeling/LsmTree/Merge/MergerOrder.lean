import LsmTree.Merge.SeekingMerger
import LsmTree.Theory.Interleaving
import LsmTree.Theory.Transition

/-! The merging iterator yields a prefix and a suffix of the sorted merge of its sources. -/
namespace LsmTree

open List Option Function Nat

variable {K V : Type*}

def Direction.view {α : Type*} : Direction → List α → List α
  | .forward, l => l
  | .backward, l => l.reverse

namespace Direction

variable {α β : Type*} {d : Direction}

@[simp] theorem opposite_opposite : d.opposite.opposite = d := by cases d <;> rfl

theorem forall_of {P : Direction → Prop} (h : P d) (h' : P d.opposite) : ∀ d', P d' := by
  intro d'
  cases d <;> cases d' <;> assumption

theorem ne_opposite : d ≠ d.opposite := by cases d <;> nofun

@[simp] theorem view_nil : d.view ([] : List α) = [] := by cases d <;> rfl

theorem view_opposite (l : List α) : d.opposite.view l = (d.view l).reverse := by
  cases d <;> simp [opposite, view]

theorem view_map (f : α → β) (l : List α) : d.view (l.map f) = (d.view l).map f := by
  cases d <;> simp [view]

theorem pull_eq_none {l : List α} : d.pull l = none ↔ l = [] := by
  cases d with
  | forward => cases l <;> simp [pull]
  | backward => simp [pull]

theorem pull_eq_some {l rest : List α} {x : α} (h : d.pull l = some (x, rest)) :
    d.view l = x :: d.view rest := by
  cases d with
  | forward =>
    cases l with
    | nil => cases h
    | cons y l =>
      cases h
      rfl
  | backward =>
    obtain ⟨y, hy, heq⟩ := map_eq_some_iff.1 h
    cases heq
    have := dropLast_append_getLast? _ hy
    simp only [view]
    rw [← this]
    simp

end Direction

section Order

variable [LinearOrder K]

theorem minCmp_eq : (minCmp : MergerEntry K V → MergerEntry K V → Ordering) =
    compareLex (compareLex (compareOn (·.value.userKey)) (fun a b => compareOn (·.value.seqno) b a))
      (compareOn (·.source)) := rfl

instance : Std.TransCmp (minCmp : MergerEntry K V → MergerEntry K V → Ordering) := by
  rw [minCmp_eq]
  have : Std.TransCmp fun a b : MergerEntry K V => compareOn (·.value.seqno) b a :=
    Std.TransCmp.opposite
  infer_instance

instance (d : Direction) : Std.TransCmp (d.cmp : MergerEntry K V → MergerEntry K V → Ordering) := by
  cases d with
  | forward => exact inferInstanceAs (Std.TransCmp minCmp)
  | backward => exact inferInstanceAs (Std.TransCmp fun a b => minCmp b a)

variable {a b : MergerEntry K V}

theorem minCmp_ne_gt (h : a.value.le b.value = true) (hsrc : a.source ≤ b.source) :
    minCmp a b ≠ .gt := by
  have hsrc' : compare a.source b.source ≠ .gt := by rwa [compare_le_iff_le]
  rcases of_decide_eq_true h with hlt | ⟨heq, hseq⟩
  · have : compare a.value.userKey b.value.userKey = .lt := compare_lt_iff_lt.2 hlt
    simp [minCmp, InternalValue.compareWith, this]
  · have hk : compare a.value.userKey b.value.userKey = .eq := compare_eq_iff_eq.2 heq
    have hs : compare b.value.seqno a.value.seqno ≠ .gt := by rwa [compare_le_iff_le]
    simp only [minCmp, InternalValue.compareWith, hk, Ordering.eq_then]
    cases hc : compare b.value.seqno a.value.seqno with
    | lt => simp
    | eq => simpa using hsrc'
    | gt => exact absurd hc hs

theorem le_of_minCmp (h : minCmp a b ≠ .gt) :
    a.value.le b.value = true := by
  refine decide_eq_true ?_
  rcases lt_trichotomy a.value.userKey b.value.userKey with hlt | heq | hgt
  · exact Or.inl hlt
  · refine Or.inr ⟨heq, ?_⟩
    have hk : compare a.value.userKey b.value.userKey = .eq := compare_eq_iff_eq.2 heq
    by_contra hs
    have : compare b.value.seqno a.value.seqno = .gt := compare_gt_iff_gt.2 (not_le.1 hs)
    exact h (by simp [minCmp, InternalValue.compareWith, hk, this])
  · have : compare a.value.userKey b.value.userKey = .gt := compare_gt_iff_gt.2 hgt
    exact absurd (by simp [minCmp, InternalValue.compareWith, this]) h

variable {d : Direction}

theorem Direction.cmp_gt (h : d.cmp a b ≠ .gt) (hsrc : a.source ≠ b.source) : d.cmp b a = .gt := by
  have hne : d.cmp a b ≠ .eq := by
    cases d with
    | forward =>
      intro heq
      exact hsrc (compare_eq_iff_eq.1 (Ordering.then_eq_eq.1 heq).2)
    | backward =>
      intro heq
      exact hsrc (compare_eq_iff_eq.1 (Ordering.then_eq_eq.1 heq).2).symm
  rw [Std.OrientedCmp.gt_iff_lt]
  cases hc : d.cmp a b with
  | lt => rfl
  | eq => exact absurd hc hne
  | gt => exact absurd hc h

end Order

namespace SeekingMerger

section Side

variable {m : SeekingMerger K V} {d : Direction} {s : MergeSide K V}

@[simp] theorem side_setSide : (m.setSide d s).side d = s := by cases d <;> rfl

@[simp] theorem side_setSide_opposite : (m.setSide d.opposite s).side d = m.side d := by
  cases d <;> rfl

@[simp] theorem side_opposite_setSide : (m.setSide d s).side d.opposite = m.side d.opposite := by
  cases d <;> rfl

@[simp] theorem sources_setSide : (m.setSide d s).sources = m.sources := by cases d <;> rfl

@[simp] theorem side_sources (sources : List (List (InternalValue K V))) :
    ({ m with sources := sources } : SeekingMerger K V).side d = m.side d := by cases d <;> rfl

end Side

def leaf (m : SeekingMerger K V) (d : Direction) (i : ℕ) : Option (MergerEntry K V) :=
  (m.side d).tree.bind (·.leaves i)

def tagged (m : SeekingMerger K V) (i : ℕ) : List (MergerEntry K V) :=
  (m.sources[i]?.getD []).map (MergerEntry.mk i)

/-- What is still to be yielded of source `i`, read in direction `d`. -/
def remaining (m : SeekingMerger K V) (d : Direction) (i : ℕ) : List (MergerEntry K V) :=
  (m.leaf d i).toList ++ d.view (m.tagged i) ++ (m.leaf d.opposite i).toList

theorem remaining_opposite (m : SeekingMerger K V) (d : Direction) (i : ℕ) :
    m.remaining d.opposite i = (m.remaining d i).reverse := by
  have hrev : ∀ o : Option (MergerEntry K V), o.toList.reverse = o.toList := by
    intro o
    cases o <;> rfl
  simp [remaining, Direction.view_opposite, hrev]

section Parked

variable {cmp : MergerEntry K V → MergerEntry K V → Ordering}
  {parked : ℕ → Option (MergerEntry K V)} {vacated : List ℕ}

def FirstParked (cmp : MergerEntry K V → MergerEntry K V → Ordering)
    (parked : ℕ → Option (MergerEntry K V)) (vacated : List ℕ) : Option ℕ → Prop
  | none => ∀ i ∈ vacated, parked i = none
  | some slot => slot ∈ vacated ∧ ∃ e, parked slot = some e ∧
      ∀ i ∈ vacated, ∀ e', parked i = some e' → cmp e e' ≠ .gt

def CacheOk (cmp : MergerEntry K V → MergerEntry K V → Ordering)
    (parked : ℕ → Option (MergerEntry K V)) (vacated : List ℕ) : ParkedCache → Prop
  | .stale => True
  | .empty => FirstParked cmp parked vacated none
  | .best slot => FirstParked cmp parked vacated (some slot)

variable (cmp) in
theorem scanParked_first [Std.TransCmp cmp] (other : LoserTree (MergerEntry K V))
    (vacated : List ℕ) :
    FirstParked cmp other.leaves vacated ((scanParked cmp other vacated).map Prod.fst) := by
  -- the best of a prefix carries its own leaf along
  suffices h : (scanParked cmp other vacated).elim (∀ i ∈ vacated, other.leaves i = none)
      fun b => b.1 ∈ vacated ∧ other.leaves b.1 = some b.2 ∧
        ∀ i ∈ vacated, ∀ e', other.leaves i = some e' → cmp b.2 e' ≠ .gt by
    cases hs : scanParked cmp other vacated with
    | none =>
      rw [hs] at h
      exact h
    | some b =>
      rw [hs] at h
      exact ⟨h.1, b.2, h.2⟩
  induction vacated using List.reverseRecOn with
  | nil => exact fun _ h => absurd h not_mem_nil
  | append_singleton vacated slot ih =>
    simp only [scanParked, foldl_append, foldl_cons, foldl_nil] at ih ⊢
    generalize List.foldl _ none vacated = best at ih ⊢
    simp only [LoserTree.peekSlot, mem_append, mem_singleton, or_imp, forall_and,
      forall_eq]
    cases hp : other.leaves slot with
    | none =>
      cases best with
      | none => exact ⟨ih, rfl⟩
      | some b => exact ⟨Or.inl ih.1, ih.2.1, ih.2.2, by simp⟩
    | some e =>
      have hself : ∀ e', some e = some e' → cmp e e' ≠ .gt := by
        rintro e' ⟨⟩
        simp [Std.ReflCmp.compare_self]
      cases best with
      | none =>
        refine ⟨Or.inr rfl, hp, fun i hi e' he' => ?_, hself⟩
        rw [ih i hi] at he'
        cases he'
      | some b =>
        obtain ⟨hmem, he, hall⟩ := ih
        dsimp only
        by_cases hlt : cmp e b.2 = .lt
        · rw [if_pos hlt]
          refine ⟨Or.inr rfl, hp, fun i hi e' he' => ?_, hself⟩
          exact Std.TransCmp.le_trans (by simp [hlt]) (hall i hi e' he')
        · rw [if_neg hlt]
          refine ⟨Or.inl hmem, he, hall, ?_⟩
          rintro e' ⟨⟩
          rwa [ne_eq, Std.OrientedCmp.gt_iff_lt]

variable {cache : ParkedCache}

theorem bestParked_first [Std.TransCmp cmp] {other : LoserTree (MergerEntry K V)}
    (h : CacheOk cmp other.leaves vacated cache) :
    FirstParked cmp other.leaves vacated (bestParked cmp other vacated cache).1 ∧
      CacheOk cmp other.leaves vacated (bestParked cmp other vacated cache).2 := by
  have hscan := scanParked_first cmp other vacated
  have hstale : FirstParked cmp other.leaves vacated (bestParked cmp other vacated .stale).1 ∧
      CacheOk cmp other.leaves vacated (bestParked cmp other vacated .stale).2 := by
    unfold bestParked
    cases hs : scanParked cmp other vacated with
    | none =>
      rw [hs] at hscan
      exact ⟨hscan, hscan⟩
    | some b =>
      rw [hs] at hscan
      exact ⟨hscan, hscan⟩
  cases cache with
  | stale => exact hstale
  | empty => exact ⟨h, h⟩
  | best slot =>
    simp only [bestParked]
    split
    · exact ⟨h, h⟩
    · exact hstale

variable [LinearOrder K] {d : Direction} {active : LoserTree (MergerEntry K V)}

variable {other : Option (LoserTree (MergerEntry K V))}

theorem pickParked_cache (h : CacheOk d.cmp (fun i => other.bind (·.leaves i)) vacated cache) :
    CacheOk d.cmp (fun i => other.bind (·.leaves i)) vacated
      (pickParked d active other vacated cache).2 := by
  cases other with
  | none => exact h
  | some t =>
    simp only [pickParked]
    split
    · exact h
    · exact (bestParked_first h).2

theorem pickParked_some (hactive : active.Standing d.cmp) {slot : ℕ}
    (h : CacheOk d.cmp (fun i => other.bind (·.leaves i)) vacated cache)
    (hpick : (pickParked d active other vacated cache).1 = some slot) :
    ∃ e, slot ∈ vacated ∧ other.bind (·.leaves slot) = some e ∧
      (∀ i ∈ vacated, ∀ e', other.bind (·.leaves i) = some e' → d.cmp e e' ≠ .gt) ∧
      ∀ i e', active.leaves i = some e' → d.cmp e e' ≠ .gt := by
  cases other with
  | none => cases hpick
  | some t =>
    simp only [pickParked] at hpick
    split at hpick
    · cases hpick
    · have hfirst := (bestParked_first h).1
      obtain ⟨best, hbest, hpick⟩ := bind_eq_some_iff.1 hpick
      obtain ⟨e, he, hpick⟩ := bind_eq_some_iff.1 hpick
      rw [hbest] at hfirst
      obtain ⟨hmem, e0, he0, hall⟩ := hfirst
      obtain rfl : e0 = e := Option.some.inj (he0.symm.trans he)
      cases hw : active.winnerSlot with
      | none =>
        simp only [hw, bind_none] at hpick
        cases hpick
        refine ⟨e0, hmem, he0, hall, fun i e' hi => ?_⟩
        rw [hactive.none hw i] at hi
        cases hi
      | some w =>
        obtain ⟨we, hwe, hwin⟩ := hactive.some w hw
        simp only [hw, bind_some, LoserTree.peekSlot, hwe] at hpick
        split at hpick
        case isFalse => cases hpick
        case isTrue hlt =>
          cases hpick
          refine ⟨e0, hmem, he0, hall, fun i e' hi => ?_⟩
          exact Std.TransCmp.le_trans (by simp [hlt]) (hwin i e' hi)

theorem pickParked_none (hactive : active.Standing d.cmp)
    (h : CacheOk d.cmp (fun i => other.bind (·.leaves i)) vacated cache)
    (hother : ∀ t, other = some t → t.Counted)
    (hpick : (pickParked d active other vacated cache).1 = none) {i : ℕ} {e' : MergerEntry K V}
    (hi : i ∈ vacated) (he' : other.bind (·.leaves i) = some e') :
    ∃ w e, active.winnerSlot = some w ∧ active.leaves w = some e ∧ d.cmp e e' ≠ .gt := by
  obtain ⟨t, rfl, hleaf⟩ := bind_eq_some_iff.1 he'
  simp only [pickParked] at hpick
  split at hpick
  case isTrue hempty =>
    rcases Bool.or_eq_true_iff.1 hempty with hnil | hzero
    · rw [isEmpty_iff.1 hnil] at hi
      cases hi
    · rw [(hother t rfl).active_eq_zero.1 (by simpa using hzero) i] at hleaf
      cases hleaf
  case isFalse =>
    have hfirst := (bestParked_first h).1
    cases hb : (bestParked d.cmp t vacated cache).1 with
    | none =>
      rw [hb] at hfirst
      rw [hfirst i hi] at hleaf
      cases hleaf
    | some best =>
      rw [hb] at hfirst
      obtain ⟨hmem, e, he, hall⟩ := hfirst
      rw [hb] at hpick
      simp only [bind_some, LoserTree.peekSlot, he] at hpick
      cases hw : active.winnerSlot with
      | none => simp [hw] at hpick
      | some w =>
        obtain ⟨we, hwe, hwin⟩ := hactive.some w hw
        simp only [hw, bind_some, LoserTree.peekSlot, hwe] at hpick
        split at hpick
        case isTrue => cases hpick
        case isFalse hlt =>
          refine ⟨w, we, rfl, hwe, Std.TransCmp.le_trans ?_ (hall i hi e' he')⟩
          rwa [ne_eq, Std.OrientedCmp.gt_iff_lt]

end Parked

section Invariant

variable [LinearOrder K] {m m' : SeekingMerger K V} {d : Direction} {spoiled : Bool}

/-- A valid tournament unless spoiled, whose empty slots are vacated and stand for drained sources.
-/
structure SideOk (m : SeekingMerger K V) (d : Direction) (spoiled : Bool) : Prop where
  counted : ∀ t, (m.side d).tree = some t → t.Counted
  valid : ∀ t, (m.side d).tree = some t → spoiled = false → t.Valid d.cmp
  source : ∀ i e, m.leaf d i = some e → e.source = i ∧ i < m.sources.length
  drained : (m.side d).tree.isSome → ∀ i, m.leaf d i = none → m.sources[i]?.getD [] = []
  vacated : (m.side d).tree.isSome → ∀ i, i ∈ (m.side d).vacated ↔
    i < m.sources.length ∧ m.leaf d i = none

structure Ok (m : SeekingMerger K V) (spoiled : Direction → Bool) : Prop where
  side : ∀ d, m.SideOk d (spoiled d)
  cache : ∀ d, CacheOk d.cmp (m.leaf d.opposite) (m.side d).vacated (m.side d).parkedBest

structure Taken (m m' : SeekingMerger K V) (d : Direction) (slot : ℕ)
    (taken : Option (MergerEntry K V)) (spoiled : Bool) : Prop where
  leaf : taken = m.leaf d slot
  gone : m'.leaf d slot = none
  other : ∀ i, i ≠ slot → m'.leaf d i = m.leaf d i
  ok : m'.SideOk d spoiled

theorem SideOk.of_tree {t : LoserTree (MergerEntry K V)} (ht : (m.side d).tree = some t)
    (hcounted : t.Counted) (hvalid : spoiled = false → t.Valid d.cmp)
    (hsource : ∀ i e, t.leaves i = some e → e.source = i ∧ i < m.sources.length)
    (hdrained : ∀ i, t.leaves i = none → m.sources[i]?.getD [] = [])
    (hvacated : ∀ i, i ∈ (m.side d).vacated ↔ i < m.sources.length ∧ t.leaves i = none) :
    m.SideOk d spoiled := by
  have hleaf : ∀ i, m.leaf d i = t.leaves i := fun i => by rw [leaf, ht]; rfl
  have htree : ∀ t', (m.side d).tree = some t' → t' = t := fun t' ht' =>
    Option.some.inj (ht'.symm.trans ht)
  refine ⟨fun t' ht' => htree t' ht' ▸ hcounted, fun t' ht' => htree t' ht' ▸ hvalid, ?_, ?_, ?_⟩
  · simpa only [hleaf] using hsource
  · simpa only [hleaf] using fun _ => hdrained
  · simpa only [hleaf] using fun _ => hvacated

theorem SideOk.put (h : m.SideOk d spoiled) {t : LoserTree (MergerEntry K V)}
    (ht : (m.side d).tree = some t) {slot active : ℕ} {old : MergerEntry K V}
    (hold : t.leaves slot = some old) {new : Option (MergerEntry K V)} {spoiled' : Bool}
    (ht' : (m'.side d).tree = some (t.put d.cmp slot new active))
    (hcounted : (t.put d.cmp slot new active).Counted)
    (hwin : spoiled' = false → spoiled = false ∧ t.winnerSlot = some slot)
    (hlen : m'.sources.length = m.sources.length)
    (hother : ∀ i, i ≠ slot → m'.sources[i]? = m.sources[i]?)
    (hnew : ∀ e, new = some e → e.source = slot)
    (hnone : new = none → m'.sources[slot]?.getD [] = [])
    (hvacated : ∀ i, i ∈ (m'.side d).vacated ↔ i ∈ (m.side d).vacated ∨ i = slot ∧ new = none) :
    m'.SideOk d spoiled' := by
  have hprimed : (m.side d).tree.isSome := by simp [ht]
  have hleaf : ∀ i, m.leaf d i = t.leaves i := fun i => by rw [leaf, ht]; rfl
  have hslot := (h.source slot old (by rw [hleaf, hold])).2
  have hself : (t.put d.cmp slot new active).leaves slot = new := update_self ..
  have hsame : ∀ i, i ≠ slot → (t.put d.cmp slot new active).leaves i = m.leaf d i := fun i hi =>
    (update_of_ne hi ..).trans (hleaf i).symm
  refine .of_tree ht' hcounted (fun hc => (h.valid t ht (hwin hc).1).put (hwin hc).2 hcounted)
    (fun i e he => ?_) (fun i hi => ?_) (fun i => ?_)
  · rw [hlen]
    by_cases heq : i = slot
    · subst heq
      rw [hself] at he
      exact ⟨hnew e he, hslot⟩
    · rw [hsame i heq] at he
      exact h.source i e he
  · by_cases heq : i = slot
    · subst heq
      rw [hself] at hi
      exact hnone hi
    · rw [hsame i heq] at hi
      rw [hother i heq]
      exact h.drained hprimed i hi
  · rw [hvacated, h.vacated hprimed, hlen]
    by_cases heq : i = slot
    · subst heq
      rw [hself, hleaf, hold]
      simp [hslot]
    · rw [hsame i heq]
      simp [heq]

theorem take_taken (h : m.SideOk d spoiled) {slot : ℕ}
    (hdrained : m.sources[slot]?.getD [] = []) :
    Taken m (m.setSide d (MergeSide.take d (m.side d) slot).2) d slot
      (MergeSide.take d (m.side d) slot).1 (spoiled || MergeSide.spoiledBy (m.side d) slot) := by
  have hself : m.setSide d (m.side d) = m := by cases d <;> rfl
  cases ht : (m.side d).tree with
  | none =>
    have hleaf : ∀ i, m.leaf d i = none := fun i => by simp [leaf, ht]
    simp only [MergeSide.take, MergeSide.spoiledBy, ht, hself, any_none, Bool.or_false]
    exact ⟨(hleaf slot).symm, hleaf slot, fun _ _ => rfl, h⟩
  | some t =>
    have hleaf : ∀ i, m.leaf d i = t.leaves i := fun i => by simp [leaf, ht]
    cases hs : t.leaves slot with
    | none =>
      simp only [MergeSide.take, MergeSide.spoiledBy, ht, LoserTree.takeSlot, hs, hself,
        any_some, isSome_none, Bool.false_and, Bool.or_false]
      exact ⟨by rw [hleaf, hs], by rw [hleaf, hs], fun _ _ => rfl, h⟩
    | some e =>
      simp only [MergeSide.take, ht, LoserTree.takeSlot, hs]
      have hleaf' : ∀ i, (m.setSide d { m.side d with
          tree := some (t.put d.cmp slot none (t.active - 1)),
          vacated := (m.side d).vacated ++ [slot] }).leaf d i =
            update t.leaves slot none i := fun i => by
        rw [leaf, side_setSide]
        rfl
      refine ⟨by rw [hleaf, hs], by rw [hleaf', update_self], fun i hi => ?_, ?_⟩
      · rw [hleaf', hleaf, update_of_ne hi]
      · refine h.put ht hs (by rw [side_setSide]) ((h.counted t ht).remove hs) (fun hclean => ?_)
          (by rw [sources_setSide]) (fun _ _ => by rw [sources_setSide]) nofun
          (fun _ => by rwa [sources_setSide]) fun i => ?_
        · obtain ⟨hspoiled, hwin⟩ := Bool.or_eq_false_iff.1 hclean
          exact ⟨hspoiled, by simpa [MergeSide.spoiledBy, ht, hs] using hwin⟩
        · rw [side_setSide, mem_append, mem_singleton, and_iff_left rfl]

variable {i : ℕ} {rest : List (InternalValue K V)}

omit [LinearOrder K] in
theorem leaf_congr (ht : (m'.side d).tree = (m.side d).tree) (i : ℕ) :
    m'.leaf d i = m.leaf d i := by
  rw [leaf, ht, leaf]

theorem SideOk.transfer (h : m.SideOk d spoiled) (hlen : m'.sources.length = m.sources.length)
    (hs : ∀ i : ℕ, m.sources[i]?.getD [] = [] → m'.sources[i]?.getD [] = [])
    (ht : (m'.side d).tree = (m.side d).tree) (hv : (m'.side d).vacated = (m.side d).vacated) :
    m'.SideOk d spoiled := by
  have hleaf := leaf_congr ht
  refine ⟨ht ▸ h.counted, ht ▸ h.valid, fun i e => ?_, fun hprimed i hi => ?_, fun hprimed i => ?_⟩
  · rw [hleaf, hlen]
    exact h.source i e
  · rw [hleaf] at hi
    exact hs i (h.drained (ht ▸ hprimed) i hi)
  · rw [hleaf, hlen, hv]
    exact h.vacated (ht ▸ hprimed) i

theorem SideOk.set_source (h : m.SideOk d spoiled) (hsome : m.sources[i]?.getD [] ≠ []) :
    ({ m with sources := m.sources.set i rest } : SeekingMerger K V).SideOk d spoiled := by
  refine h.transfer length_set (fun j hj => ?_) (by rw [side_sources]) (by rw [side_sources])
  rwa [getElem?_set_ne]
  rintro rfl
  exact hsome hj

theorem SideOk.congr (h : m.SideOk d spoiled) (hs : m'.sources = m.sources)
    (ht : (m'.side d).tree = (m.side d).tree) (hv : (m'.side d).vacated = (m.side d).vacated) :
    m'.SideOk d spoiled :=
  h.transfer (by rw [hs]) (by rw [hs]; exact fun _ => id) ht hv

structure Pulled (m m' : SeekingMerger K V) (d : Direction) (lo hi : ℕ)
    (head : ℕ → Option (MergerEntry K V)) (spoiled : Bool) : Prop where
  own : m'.side d = m.side d
  length : m'.sources.length = m.sources.length
  remaining : ∀ i, lo ≤ i → i < hi →
    (head i).toList ++ d.view (m'.tagged i) ++ (m'.leaf d.opposite i).toList = m.remaining d i
  drained : ∀ i, lo ≤ i → i < hi → head i = none → m'.sources[i]?.getD [] = []
  source : ∀ i e, lo ≤ i → i < hi → head i = some e → e.source = i
  frame : ∀ i, i < lo ∨ hi ≤ i →
    m'.sources[i]? = m.sources[i]? ∧ m'.leaf d.opposite i = m.leaf d.opposite i
  ok : m'.SideOk d.opposite spoiled

theorem pullSlot_pulled (h : m.SideOk d.opposite spoiled) (hnone : (m.side d).tree = none) :
    Pulled m (pullSlot d i m).2 d i (i + 1) (fun _ => (pullSlot d i m).1)
      (spoiled || (d.pull (m.sources[i]?.getD [])).isNone &&
        MergeSide.spoiledBy (m.side d.opposite) i) := by
  have hleaf : ∀ j, m.leaf d j = none := fun j => by simp [leaf, hnone]
  have hi : ∀ j, i ≤ j → j < i + 1 → j = i := fun j h1 h2 => by omega
  cases hp : d.pull (m.sources[i]?.getD []) with
  | some p =>
    obtain ⟨value, rest⟩ := p
    have hview := Direction.pull_eq_some hp
    have hsome : m.sources[i]?.getD [] ≠ [] := by
      intro hnil
      rw [Direction.pull_eq_none.2 hnil] at hp
      cases hp
    have hlt : i < m.sources.length := by
      by_contra hge
      rw [getElem?_eq_none (not_lt.1 hge)] at hsome
      exact hsome rfl
    simp only [pullSlot, hp, isNone_some, Bool.false_and, Bool.or_false]
    refine ⟨side_sources _, length_set, ?_, nofun, ?_, ?_, h.set_source hsome⟩
    · intro j h1 h2
      obtain rfl := hi j h1 h2
      have htagged : ({ m with sources := m.sources.set j rest } : SeekingMerger K V).tagged j =
          rest.map (MergerEntry.mk j) := by
        simp [tagged, hlt]
      rw [SeekingMerger.remaining, hleaf, htagged, Direction.view_map, tagged, Direction.view_map,
        hview, leaf, side_sources]
      simp [leaf]
    · rintro j e h1 h2 ⟨⟩
      exact (hi j h1 h2).symm
    · intro j hj
      refine ⟨getElem?_set_ne (by omega), ?_⟩
      rw [leaf, side_sources]
      rfl
  | none =>
    have hnil := Direction.pull_eq_none.1 hp
    obtain ⟨htaken, hgone, hother, hok⟩ := take_taken h hnil
    simp only [pullSlot, hp, isNone_none, Bool.true_and]
    refine ⟨by simp, by simp, ?_, ?_, ?_, ?_, hok⟩
    · intro j h1 h2
      obtain rfl := hi j h1 h2
      rw [htaken, hgone, SeekingMerger.remaining, hleaf, tagged, tagged, sources_setSide, hnil]
      simp
    · intro j h1 h2 _
      obtain rfl := hi j h1 h2
      rwa [sources_setSide]
    · intro j e h1 h2 he
      obtain rfl := hi j h1 h2
      rw [htaken] at he
      exact (h.source j e he).1
    · intro j hj
      exact ⟨by rw [sources_setSide], hother j (by omega)⟩

theorem pullSlots_pulled {lo len : ℕ} (h : m.SideOk d.opposite spoiled)
    (hnone : (m.side d).tree = none) :
    (pullSlots d (List.range' lo len) m).1.length = len ∧
      Pulled m (pullSlots d (List.range' lo len) m).2 d lo (lo + len)
        (fun i => (pullSlots d (List.range' lo len) m).1[i - lo]?.join)
        (spoiled || pullsSpoil d (List.range' lo len) m) := by
  induction len generalizing lo m spoiled with
  | zero =>
    refine ⟨rfl, rfl, rfl, ?_, ?_, ?_, fun _ _ => ⟨rfl, rfl⟩,
      by simpa [pullsSpoil, pullSlots] using h⟩ <;> intros <;> omega
  | succ len ih =>
    rw [List.range'_succ]
    have hp := pullSlot_pulled (i := lo) h hnone
    obtain ⟨hlen, hq⟩ := ih hp.ok (by rw [hp.own, hnone])
    rw [Bool.or_assoc] at hq
    simp only [pullSlots, pullsSpoil]
    set m1 := (pullSlot d lo m).2 with hm1
    set heads := (pullSlots d (List.range' (lo + 1) len) m1).1 with hheads
    set m2 := (pullSlots d (List.range' (lo + 1) len) m1).2 with hm2
    have hhead : ∀ i, lo < i → ((pullSlot d lo m).1 :: heads)[i - lo]?.join =
        heads[i - (lo + 1)]?.join := by
      intro i hi
      rw [show i - lo = i - (lo + 1) + 1 by omega, getElem?_cons_succ]
    have hhead0 : ((pullSlot d lo m).1 :: heads)[lo - lo]?.join = (pullSlot d lo m).1 := by
      rw [Nat.sub_self]
      rfl
    have hframe := hq.frame lo (Or.inl (Nat.lt_succ_self lo))
    refine ⟨by simp [hlen], hq.own.trans hp.own, hq.length.trans hp.length, ?_, ?_, ?_, ?_, hq.ok⟩
    · intro i h1 h2
      by_cases hi : i = lo
      · subst hi
        rw [hhead0, tagged, hframe.1, hframe.2]
        exact hp.remaining i (le_refl i) (Nat.lt_succ_self i)
      · have hp' := hp.frame i (by omega)
        rw [hhead i (by omega), hq.remaining i (by omega) (by omega)]
        simp only [SeekingMerger.remaining, tagged, hp'.1, hp'.2]
        rw [leaf, hp.own]
        rfl
    · intro i h1 h2 hnone
      by_cases hi : i = lo
      · subst hi
        rw [hhead0] at hnone
        rw [hframe.1]
        exact hp.drained i (le_refl i) (Nat.lt_succ_self i) hnone
      · rw [hhead i (by omega)] at hnone
        exact hq.drained i (by omega) (by omega) hnone
    · intro i e h1 h2 he
      by_cases hi : i = lo
      · subst hi
        rw [hhead0] at he
        exact hp.source i e (le_refl i) (Nat.lt_succ_self i) he
      · rw [hhead i (by omega)] at he
        exact hq.source i e (by omega) (by omega) he
    · intro i hi
      have hq' := hq.frame i (by omega)
      have hp' := hp.frame i (by omega)
      exact ⟨hq'.1.trans hp'.1, hq'.2.trans hp'.2⟩

omit [LinearOrder K] in
theorem remaining_congr (hs : m'.sources = m.sources)
    (ht : ∀ d, (m'.side d).tree = (m.side d).tree) (i : ℕ) :
    m'.remaining d i = m.remaining d i := by
  rw [remaining, remaining, leaf_congr (ht d), leaf_congr (ht d.opposite), tagged, tagged, hs]

variable {marks : Direction → Bool}

theorem Ok.of_sides (hown : m.SideOk d (marks d)) (hopp : m.SideOk d.opposite (marks d.opposite))
    (hcache : CacheOk d.cmp (m.leaf d.opposite) (m.side d).vacated (m.side d).parkedBest)
    (hstale : (m.side d.opposite).parkedBest = .stale) : m.Ok marks := by
  refine ⟨Direction.forall_of hown hopp, Direction.forall_of hcache ?_⟩
  rw [hstale]
  trivial

theorem initializeTree_ok (h : m.Ok marks) (hnone : (m.side d).tree = none) :
    (initializeTree d m).Ok (update marks d.opposite
        (marks d.opposite || pullsSpoil d (List.range m.sources.length) m)) ∧
      (∃ t, ((initializeTree d m).side d).tree = some t ∧ t.Valid d.cmp) ∧
      ∀ i, (initializeTree d m).remaining d i = m.remaining d i := by
  obtain ⟨hlen, hp⟩ := pullSlots_pulled (h.side d.opposite) hnone
  rw [← range_eq_range'] at hlen hp
  obtain ⟨initial, hinit⟩ : ∃ l, l = (pullSlots d (List.range m.sources.length) m).1 := ⟨_, rfl⟩
  obtain ⟨m1, hm1⟩ : ∃ m1, m1 = (pullSlots d (List.range m.sources.length) m).2 := ⟨_, rfl⟩
  rw [← hinit] at hlen
  simp only [← hinit, ← hm1, zero_add] at hp
  obtain ⟨t, ht⟩ : ∃ t, t = LoserTree.build d.cmp initial := ⟨_, rfl⟩
  obtain ⟨m', hm'⟩ : ∃ m', m' = initializeTree d m := ⟨_, rfl⟩
  have hown : m'.side d =
      ⟨some t, (List.range m.sources.length).filter fun i => (t.peekSlot i).isNone, .stale⟩ := by
    simp [hm', initializeTree, ht, hinit]
  have hopp : m'.side d.opposite = { m1.side d.opposite with parkedBest := .stale } := by
    simp [hm', initializeTree, hm1]
  have hsources : m'.sources = m1.sources := by simp [hm', initializeTree, hm1]
  have hvalid : t.Valid d.cmp := ht ▸ LoserTree.build_valid initial
  have hleaves : ∀ i, t.leaves i = initial[i]?.join := fun i => by rw [ht]; rfl
  have hleaf : ∀ i, m'.leaf d i = initial[i]?.join := fun i => by simp [leaf, hown, hleaves]
  have hout : ∀ i, m.sources.length ≤ i → initial[i]?.join = none := fun i hi => by
    rw [getElem?_eq_none (by omega)]
    rfl
  have hleafOpp : ∀ i, m'.leaf d.opposite i = m1.leaf d.opposite i :=
    leaf_congr (by rw [hopp])
  rw [← hm']
  refine ⟨Ok.of_sides (d := d) ?_ ?_ ?_ (by rw [hopp]), ⟨t, by rw [hown], hvalid⟩, fun i => ?_⟩
  · refine .of_tree (by rw [hown]) hvalid.toCounted (fun _ => hvalid) (fun i e he => ?_)
      (fun i hi => ?_) (fun i => ?_)
    · rw [hleaves] at he
      rw [hsources, hp.length]
      by_cases hi : i < m.sources.length
      · exact ⟨hp.source i e (zero_le i) hi he, hi⟩
      · rw [hout i (by omega)] at he
        cases he
    · rw [hleaves] at hi
      rw [hsources]
      by_cases hlt : i < m.sources.length
      · exact hp.drained i (zero_le i) hlt hi
      · rw [getElem?_eq_none (by rw [hp.length]; omega)]
        rfl
    · rw [hown, hsources, hp.length]
      simp [LoserTree.peekSlot]
  · rw [update_self]
    exact hp.ok.congr hsources (by rw [hopp]) (by rw [hopp])
  · rw [hown]
    trivial
  · by_cases hi : i < m.sources.length
    · rw [← hp.remaining i (zero_le i) hi, SeekingMerger.remaining, hleaf, tagged, hsources,
        hleafOpp]
      rfl
    · have hframe := hp.frame i (by omega)
      have hnil : m.leaf d i = none := by rw [leaf, hnone]; rfl
      rw [SeekingMerger.remaining, SeekingMerger.remaining, hleaf, hleafOpp, tagged, tagged, hsources,
        hframe.1, hframe.2, hout i (by omega), hnil]

theorem Ok.setCache (h : m.Ok marks) {cache : ParkedCache}
    (hc : CacheOk d.cmp (m.leaf d.opposite) (m.side d).vacated cache) :
    (m.setSide d { m.side d with parkedBest := cache }).Ok marks := by
  obtain ⟨m', hm'⟩ : ∃ m', m' = m.setSide d { m.side d with parkedBest := cache } := ⟨_, rfl⟩
  have hown : m'.side d = { m.side d with parkedBest := cache } := by rw [hm', side_setSide]
  have hopp : m'.side d.opposite = m.side d.opposite := by rw [hm', side_opposite_setSide]
  have hsources : m'.sources = m.sources := by rw [hm', sources_setSide]
  rw [← hm']
  refine ⟨Direction.forall_of (d := d) ?_ ?_, Direction.forall_of (d := d) ?_ ?_⟩
  · exact (h.side d).congr hsources (by rw [hown]) (by rw [hown])
  · exact (h.side d.opposite).congr hsources (by rw [hopp]) (by rw [hopp])
  · rw [hown, funext (leaf_congr (m := m) (by rw [hopp]))]
    exact hc
  · have hcache := h.cache d.opposite
    rw [Direction.opposite_opposite] at hcache ⊢
    rw [hopp, funext (leaf_congr (m := m) (by rw [hown]))]
    exact hcache

omit [LinearOrder K] in
theorem remaining_setCache {d' : Direction} (cache : ParkedCache) (i : ℕ) :
    (m.setSide d { m.side d with parkedBest := cache }).remaining d' i = m.remaining d' i := by
  refine remaining_congr sources_setSide (Direction.forall_of (d := d) ?_ ?_) i
  · rw [side_setSide]
  · rw [side_opposite_setSide]

structure Scanned (m m' : SeekingMerger K V) (d : Direction) (marks : Direction → Bool) :
    Prop where
  ok : m'.Ok marks
  tree : (m'.side d).tree = (m.side d).tree
  opposite : (m'.side d.opposite).tree = (m.side d.opposite).tree
  vacated : (m'.side d).vacated = (m.side d).vacated
  stale : (m'.side d.opposite).parkedBest = .stale
  remaining : ∀ i, m'.remaining d i = m.remaining d i

theorem scan_scanned {t : LoserTree (MergerEntry K V)} (h : m.Ok marks) :
    Scanned m (scan d m t).2 d marks := by
  obtain ⟨m1, hm1⟩ : ∃ m1, m1 = m.setSide d.opposite { m.side d.opposite with parkedBest := .stale } :=
    ⟨_, rfl⟩
  have h1 : m1.Ok marks := hm1 ▸ h.setCache trivial
  have hown : m1.side d = m.side d := by rw [hm1, side_setSide_opposite]
  have hopp : m1.side d.opposite = { m.side d.opposite with parkedBest := .stale } := by
    rw [hm1, side_setSide]
  obtain ⟨cache, hcache⟩ : ∃ c, c = (pickParked d t (m1.side d.opposite).tree (m1.side d).vacated
    (m1.side d).parkedBest).2 := ⟨_, rfl⟩
  have hm2 : (scan d m t).2 = m1.setSide d { m1.side d with parkedBest := cache } := by
    rw [hcache, hm1]
    rfl
  rw [hm2]
  refine ⟨h1.setCache (hcache ▸ pickParked_cache (h1.cache d)), ?_, ?_, ?_, ?_, fun i => ?_⟩
  · rw [side_setSide, hown]
  · rw [side_opposite_setSide, hopp]
  · rw [side_setSide, hown]
  · rw [side_opposite_setSide, hopp]
  · rw [remaining_setCache, hm1, remaining_setCache]

def Yields (d : Direction) (merged : List (MergerEntry K V)) (result : Option (InternalValue K V))
    (m' : SeekingMerger K V) (marks : Direction → Bool) : Prop :=
  m'.Ok marks ∧ ((result = none ∧ merged = [] ∧
      Interleaving.IsMerge MergerEntry.source d.cmp (m'.remaining d) merged) ∨
    ∃ e merged', result = some e.value ∧ merged = e :: merged' ∧
      Interleaving.IsMerge MergerEntry.source d.cmp (m'.remaining d) merged')

/-- No leaf of the tournament and none of the parked leaves comes before the entry. -/
structure Leads (m : SeekingMerger K V) (d : Direction) (e : MergerEntry K V) : Prop where
  leaves : ∀ j e', m.leaf d j = some e' → d.cmp e e' ≠ .gt
  parked : ∀ j ∈ (m.side d).vacated, ∀ e', m.leaf d.opposite j = some e' → d.cmp e e' ≠ .gt

variable {merged : List (MergerEntry K V)} {t : LoserTree (MergerEntry K V)} {slot : ℕ}
  {e : MergerEntry K V}

omit [LinearOrder K] in
theorem remaining_eq (hown : m'.leaf d i = m.leaf d i)
    (hopp : m'.leaf d.opposite i = m.leaf d.opposite i) (hs : m'.sources[i]? = m.sources[i]?) :
    m'.remaining d i = m.remaining d i := by
  rw [remaining, remaining, hown, hopp, tagged, tagged, hs]

section Advance

variable (h : m.Ok marks)
  (hmerged : Interleaving.IsMerge MergerEntry.source d.cmp (m.remaining d) merged)

include h hmerged

theorem Leads.yields (hl : m.Leads d e) (hprimed : (m.side d).tree.isSome)
    {rest : List (MergerEntry K V)} {marks' : Direction → Bool} (hsource : e.source = slot)
    (hrest : m.remaining d slot = e :: rest) (h' : m'.Ok marks') (hself : m'.remaining d slot = rest)
    (hother : ∀ i, i ≠ slot → m'.remaining d i = m.remaining d i) :
    Yields d merged (some e.value) m' marks' := by
  have hs := h.side d
  obtain ⟨merged', rfl, hmerged'⟩ := hmerged.pop hrest fun j b hj hb => by
    have hpair : d.cmp e b ≠ .gt ∧ b.source = j := by
      cases hleaf : m.leaf d j with
      | some e' =>
        obtain rfl : e' = b := by simpa [remaining, hleaf] using hb
        exact ⟨hl.leaves j e' hleaf, (hs.source j e' hleaf).1⟩
      | none =>
        have hnil : m.tagged j = [] := by rw [tagged, hs.drained hprimed j hleaf]; rfl
        rw [remaining, hleaf, hnil] at hb
        cases ho : m.leaf d.opposite j with
        | none => simp [ho] at hb
        | some e' =>
          obtain ⟨hsrc, hlt⟩ := (h.side d.opposite).source j e' ho
          obtain rfl : e' = b := by simpa [ho] using hb
          exact ⟨hl.parked j ((hs.vacated hprimed j).2 ⟨hlt, hleaf⟩) e' ho, hsrc⟩
    exact Direction.cmp_gt hpair.1 (by rw [hsource, hpair.2]; exact Ne.symm hj)
  refine ⟨h', Or.inr ⟨e, merged', rfl, rfl, hmerged'.congr fun i => ?_⟩⟩
  by_cases hi : i = slot
  · subst hi
    rw [update_self, hself]
  · rw [update_of_ne hi, hother i hi]

section Emit

variable (hstale : (m.side d.opposite).parkedBest = .stale) (hl : m.Leads d e)

include hstale hl

theorem claim_yields (hprimed : (m.side d).tree.isSome)
    (hmem : slot ∈ (m.side d).vacated) (he : m.leaf d.opposite slot = some e)
    {s : MergeSide K V}
    (htake : MergeSide.take d.opposite (m.side d.opposite) slot = (some e, s)) :
    Yields d merged (some e.value)
      ((m.setSide d.opposite s).setSide d { m.side d with parkedBest := .stale })
      (update marks d.opposite
        (marks d.opposite || MergeSide.spoiledBy (m.side d.opposite) slot)) := by
  obtain ⟨-, hnone⟩ := ((h.side d).vacated hprimed slot).1 hmem
  have hdrained := (h.side d).drained hprimed slot hnone
  have ht := take_taken (h.side d.opposite) hdrained
  rw [htake] at ht
  obtain ⟨m', hm'⟩ : ∃ m', m' =
    (m.setSide d.opposite s).setSide d { m.side d with parkedBest := .stale } := ⟨_, rfl⟩
  have hown : m'.side d = { m.side d with parkedBest := .stale } := by rw [hm', side_setSide]
  have hopp : m'.side d.opposite = s := by
    rw [hm', side_opposite_setSide, side_setSide]
  have hsources : m'.sources = m.sources := by rw [hm', sources_setSide, sources_setSide]
  have hleafOwn : ∀ i, m'.leaf d i = m.leaf d i := leaf_congr (by rw [hown])
  have hleafOpp : ∀ i, m'.leaf d.opposite i = (m.setSide d.opposite s).leaf d.opposite i :=
    leaf_congr (by rw [hopp, side_setSide])
  have hcache : s.parkedBest = .stale := by
    have : s = (MergeSide.take d.opposite (m.side d.opposite) slot).2 := by rw [htake]
    rw [this, MergeSide.take]
    split
    · exact hstale
    · split <;> exact hstale
  rw [← hm']
  have hrest : m.remaining d slot = [e] := by
    rw [remaining, hnone, tagged, hdrained, he]
    simp
  refine hl.yields h hmerged hprimed ((h.side d.opposite).source slot e he).1 hrest
    (.of_sides (d := d) ?_ ?_ ?_ (hopp ▸ hcache)) ?_ fun i hi => ?_
  · rw [update_of_ne Direction.ne_opposite]
    exact (h.side d).congr hsources (by rw [hown]) (by rw [hown])
  · rw [update_self]
    exact ht.ok.congr (by rw [hsources, sources_setSide]) (by rw [hopp, side_setSide])
      (by rw [hopp, side_setSide])
  · rw [hown]
    trivial
  · rw [remaining, hleafOwn, hnone, tagged, hsources, hdrained, hleafOpp, ht.gone]
    simp
  · exact remaining_eq (hleafOwn i) ((hleafOpp i).trans (ht.other i hi)) (by rw [hsources])

theorem drain_yields (ht : (m.side d).tree = some t) (hw : t.winnerSlot = some slot) (he : t.leaves slot = some e)
    (hdrained : m.sources[slot]?.getD [] = []) :
    Yields d merged (some e.value) (m.setSide d
      ⟨some (t.put d.cmp slot none (t.active - 1)), (m.side d).vacated ++ [slot], .stale⟩)
      marks := by
  have hleaf : ∀ i, m.leaf d i = t.leaves i := fun i => by rw [leaf, ht]; rfl
  obtain ⟨s, hs⟩ : ∃ s : MergeSide K V, s = ⟨some (t.put d.cmp slot none (t.active - 1)),
    (m.side d).vacated ++ [slot], .stale⟩ := ⟨_, rfl⟩
  have hleafOwn : ∀ i, (m.setSide d s).leaf d i = update t.leaves slot none i := fun i => by
    rw [leaf, side_setSide, hs]
    rfl
  have hleafOpp : ∀ i, (m.setSide d s).leaf d.opposite i = m.leaf d.opposite i :=
    leaf_congr (by rw [side_opposite_setSide])
  rw [← hs]
  have hrest : m.remaining d slot = e :: (m.leaf d.opposite slot).toList := by
    rw [remaining, hleaf, he, tagged, hdrained]
    simp
  refine hl.yields h hmerged (by simp [ht]) ((h.side d).source slot e (by rw [hleaf, he])).1 hrest
    (.of_sides (d := d) ?_ ?_ ?_ ?_) ?_ fun i hi => ?_
  · exact (h.side d).put ht he (by rw [side_setSide, hs]) (((h.side d).counted t ht).remove he)
      (fun hc => ⟨hc, hw⟩) (by rw [sources_setSide]) (fun _ _ => by rw [sources_setSide]) nofun
      (fun _ => by rwa [sources_setSide]) fun i => by
        rw [side_setSide, hs, mem_append, mem_singleton, and_iff_left rfl]
  · exact (h.side d.opposite).congr sources_setSide (by rw [side_opposite_setSide])
      (by rw [side_opposite_setSide])
  · rw [side_setSide, hs]
    trivial
  · rw [side_opposite_setSide, hstale]
  · rw [remaining, hleafOwn, update_self, tagged, sources_setSide, hdrained, hleafOpp]
    simp
  · refine remaining_eq ?_ (hleafOpp i) (by rw [sources_setSide])
    rw [hleafOwn, update_of_ne hi, hleaf]

theorem refill_yields (ht : (m.side d).tree = some t) (hw : t.winnerSlot = some slot) (he : t.leaves slot = some e) {value : InternalValue K V}
    (hpull : d.pull (m.sources[slot]?.getD []) = some (value, rest)) :
    Yields d merged (some e.value)
      (({ m with sources := m.sources.set slot rest } : SeekingMerger K V).setSide d
        { m.side d with tree := some (t.put d.cmp slot (some ⟨slot, value⟩) t.active) })
      marks := by
  have hleaf : ∀ i, m.leaf d i = t.leaves i := fun i => by rw [leaf, ht]; rfl
  have hsome : m.sources[slot]?.getD [] ≠ [] := by
    intro hnil
    rw [Direction.pull_eq_none.2 hnil] at hpull
    cases hpull
  obtain ⟨hsource, hlt⟩ := (h.side d).source slot e (by rw [hleaf, he])
  obtain ⟨m', hm'⟩ : ∃ m', m' =
    ({ m with sources := m.sources.set slot rest } : SeekingMerger K V).setSide d
      { m.side d with tree := some (t.put d.cmp slot (some ⟨slot, value⟩) t.active) } := ⟨_, rfl⟩
  have hown : m'.side d =
      { m.side d with tree := some (t.put d.cmp slot (some ⟨slot, value⟩) t.active) } := by
    rw [hm', side_setSide]
  have hopp : m'.side d.opposite = m.side d.opposite := by
    rw [hm', side_opposite_setSide, side_sources]
  have hsources : m'.sources = m.sources.set slot rest := by rw [hm', sources_setSide]
  have hleafOwn : ∀ i, m'.leaf d i = update t.leaves slot (some ⟨slot, value⟩) i :=
    fun i => by
      rw [leaf, hown]
      rfl
  have hleafOpp : ∀ i, m'.leaf d.opposite i = m.leaf d.opposite i := leaf_congr (by rw [hopp])
  rw [← hm']
  have hrest : m.remaining d slot = e :: ⟨slot, value⟩ ::
      (d.view rest).map (MergerEntry.mk slot) ++ (m.leaf d.opposite slot).toList := by
    rw [remaining, hleaf, he, tagged, Direction.view_map, Direction.pull_eq_some hpull]
    simp
  refine hl.yields h hmerged (by simp [ht]) hsource hrest (.of_sides (d := d) ?_ ?_ ?_ ?_) ?_
    fun i hi => ?_
  · refine (h.side d).put ht he (by rw [hown]) (((h.side d).counted t ht).replace he _)
      (fun hc => ⟨hc, hw⟩) (by rw [hsources, length_set])
      (fun i hi => by rw [hsources, getElem?_set_ne (Ne.symm hi)]) ?_ nofun fun i => ?_
    · rintro e' ⟨⟩
      rfl
    · rw [hown]
      simp
  · have hsame := hopp.trans (side_sources (m := m) (m.sources.set slot rest)).symm
    exact ((h.side d.opposite).set_source hsome).congr hsources
      (congrArg MergeSide.tree hsame) (congrArg MergeSide.vacated hsame)
  · rw [hown, funext hleafOpp]
    exact h.cache d
  · rw [hopp, hstale]
  · rw [remaining, hleafOwn, update_self, tagged, hsources, getElem?_set_self hlt,
      Direction.view_map, hleafOpp]
    simp
  · refine remaining_eq ?_ (hleafOpp i) (by rw [hsources, getElem?_set_ne (Ne.symm hi)])
    rw [hleafOwn, update_of_ne hi, hleaf]

end Emit

theorem emitWinner_yields (ht : (m.side d).tree = some t) (hstanding : t.Standing d.cmp)
    (hstale : (m.side d.opposite).parkedBest = .stale)
    (hparked : ∀ j ∈ (m.side d).vacated, ∀ e', m.leaf d.opposite j = some e' →
      ∃ w e, t.winnerSlot = some w ∧ t.leaves w = some e ∧ d.cmp e e' ≠ .gt) :
    ∃ result m', emitWinner d m t = some (result, m') ∧ Yields d merged result m' marks := by
  have hprimed : (m.side d).tree.isSome := by simp [ht]
  have hleaf : ∀ i, m.leaf d i = t.leaves i := fun i => by rw [leaf, ht]; rfl
  cases hw : t.winnerSlot with
  | none =>
    have hempty : ∀ i, m.remaining d i = [] := by
      intro i
      have hnone : m.leaf d i = none := (hleaf i).trans (hstanding.none hw i)
      have hopp : m.leaf d.opposite i = none := by
        cases ho : m.leaf d.opposite i with
        | none => rfl
        | some e' =>
          have hlt := ((h.side d.opposite).source i e' ho).2
          obtain ⟨w, -, hw', -⟩ := hparked i (((h.side d).vacated hprimed i).2 ⟨hlt, hnone⟩) e' ho
          rw [hw] at hw'
          cases hw'
      rw [remaining, hnone, hopp, tagged, (h.side d).drained hprimed i hnone]
      simp
    refine ⟨none, m, by simp [emitWinner, hw], h, Or.inl ⟨rfl, hmerged.eq_nil hempty, hmerged⟩⟩
  | some source =>
    obtain ⟨e, he, hmin⟩ := hstanding.some source hw
    have hl : m.Leads d e := by
      refine ⟨fun j e' he' => hmin j e' (by rw [← hleaf, he']), fun j hj e' he' => ?_⟩
      obtain ⟨w, e0, hw', he0, hle⟩ := hparked j hj e' he'
      rw [hw] at hw'
      cases hw'
      rw [he] at he0
      cases he0
      exact hle
    cases hp : d.pull (m.sources[source]?.getD []) with
    | some p =>
      obtain ⟨value, rest⟩ := p
      refine ⟨_, _, ?_, refill_yields h hmerged hstale hl ht hw he hp⟩
      simp [emitWinner, hw, hp, LoserTree.replaceMin, he]
    | none =>
      refine ⟨_, _, ?_, drain_yields h hmerged hstale hl ht hw he (Direction.pull_eq_none.1 hp)⟩
      simp [emitWinner, hw, hp, LoserTree.popMin, he]

theorem advancePrimed_yields (ht : (m.side d).tree = some t) (hstanding : t.Standing d.cmp) :
    ∃ result m', advancePrimed d m t = some (result, m') ∧ Yields d merged result m'
      (update marks d.opposite (marks d.opposite || claimSpoils d m)) := by
  have hs := scan_scanned (d := d) (t := t) h
  obtain ⟨m2, hm2⟩ : ∃ m2, m2 = (scan d m t).2 := ⟨_, rfl⟩
  rw [← hm2] at hs
  have ht2 : (m2.side d).tree = some t := hs.tree.trans ht
  have hmerged2 := hmerged.congr fun i => (hs.remaining i).symm
  have hleafOpp : ∀ i, m2.leaf d.opposite i = m.leaf d.opposite i := leaf_congr hs.opposite
  have hscan : (scan d m t).1 = (pickParked d t (m.side d.opposite).tree (m.side d).vacated
      (m.side d).parkedBest).1 := by
    simp [scan]
  cases hp : (scan d m t).1 with
  | none =>
    have hopen : advancePrimed d m t = emitWinner d m2 t := by
      simp [advancePrimed, hp, hm2]
    have hmarks : claimSpoils d m = false := by simp [claimSpoils, ht, hp]
    rw [hopen, hmarks, Bool.or_false, update_eq_self]
    refine emitWinner_yields hs.ok hmerged2 ht2 hstanding hs.stale fun j hj e' he' => ?_
    rw [hs.vacated] at hj
    rw [hleafOpp] at he'
    exact pickParked_none hstanding (h.cache d) (h.side d.opposite).counted (hscan ▸ hp) hj he'
  | some slot =>
    obtain ⟨e, hmem, he, hparked, hleaves⟩ := pickParked_some hstanding (h.cache d) (hscan ▸ hp)
    have htake : MergeSide.take d.opposite (m2.side d.opposite) slot =
        (some e, (MergeSide.take d.opposite (m2.side d.opposite) slot).2) := by
      obtain ⟨t', ht', he'⟩ := bind_eq_some_iff.1 he
      simp [MergeSide.take, hs.opposite, ht', LoserTree.takeSlot, he']
    have hopen : advancePrimed d m t = some (some e.value,
        (m2.setSide d.opposite (MergeSide.take d.opposite (m2.side d.opposite) slot).2).setSide d
          { m2.side d with parkedBest := .stale }) := by
      simp only [advancePrimed, hp, ← hm2, map_some]
      rw [htake]
    have hmarks : claimSpoils d m = MergeSide.spoiledBy (m2.side d.opposite) slot := by
      simp [claimSpoils, ht, hp, MergeSide.spoiledBy, hs.opposite]
    rw [hmarks]
    refine ⟨_, _, hopen, claim_yields hs.ok hmerged2 hs.stale ⟨?_, ?_⟩ (by simp [ht2])
      (by rw [hs.vacated]; exact hmem) (by rw [hleafOpp]; exact he) htake⟩
    · intro j e' he'
      rw [leaf, ht2] at he'
      exact hleaves j e' he'
    · intro j hj e' he'
      rw [hs.vacated] at hj
      rw [hleafOpp] at he'
      exact hparked j hj e' he'

/-- A call in a direction whose tournament is not spoiled, or is empty, yields the next item. -/
theorem advance_yields
    (hclean : ∀ t, (m.side d).tree = some t → marks d = true → t.active = 0) :
    ∃ result m', m.advance d = some (result, m') ∧ Yields d merged result m'
      (update marks d.opposite (marks d.opposite || m.spoilsOpposite d)) := by
  cases hside : (m.side d).tree with
  | some t =>
    have hprimed : m.primed d = m := by simp [primed, hside]
    have hmarks : m.spoilsOpposite d = claimSpoils d m := by simp [spoilsOpposite, hside, hprimed]
    have hstanding : t.Standing d.cmp := by
      cases hm : marks d with
      | false => exact ((h.side d).valid t hside hm).standing
      | true => exact ((h.side d).counted t hside).standing (hclean t hside hm)
    rw [advance, hprimed, hside, hmarks]
    exact advancePrimed_yields h hmerged hside hstanding
  | none =>
    have hprimed : m.primed d = initializeTree d m := by simp [primed, hside]
    obtain ⟨hok, ⟨t, ht, hvalid⟩, hrem⟩ := initializeTree_ok h hside
    have hmarks : m.spoilsOpposite d = (pullsSpoil d (List.range m.sources.length) m ||
        claimSpoils d (initializeTree d m)) := by simp [spoilsOpposite, hside, hprimed]
    have hyields := advancePrimed_yields hok (hmerged.congr fun i => (hrem i).symm) ht hvalid.standing
    rw [update_self, update_idem, Bool.or_assoc, ← hmarks] at hyields
    rw [advance, hprimed, ht]
    exact hyields

end Advance

theorem new_ok (sources : List (List (InternalValue K V))) :
    (new sources).Ok fun _ => false := by
  have hside : ∀ d, (new sources).side d = ⟨none, [], .stale⟩ := by
    intro d
    cases d <;> rfl
  refine ⟨fun d => ?_, fun d => ?_⟩
  · constructor <;> simp [leaf, hside]
  · rw [hside]
    trivial

/-- The merge of the sources with every item tagged by the number of its source. -/
def taggedMerge (sources : List (List (InternalValue K V))) : List (MergerEntry K V) :=
  KWayMerge.mergeAll (fun a b => decide (minCmp a b ≠ .gt))
    (sources.mapIdx fun i s => s.map (MergerEntry.mk i))

omit [LinearOrder K] in
theorem taggedMerge_source (sources : List (List (InternalValue K V))) (i : ℕ)
    (s : List (MergerEntry K V))
    (hs : (sources.mapIdx fun i s => s.map (MergerEntry.mk i))[i]? = some s) :
    ∀ a ∈ s, a.source = 0 + i := by
  intro a ha
  rw [getElem?_mapIdx] at hs
  obtain ⟨s0, -, rfl⟩ := map_eq_some_iff.1 hs
  obtain ⟨v, -, rfl⟩ := mem_map.1 ha
  exact (zero_add i).symm

theorem taggedMerge_isMerge {sources : List (List (InternalValue K V))}
    (hs : ∀ s ∈ sources, s.Pairwise (·.le · = true)) :
    Interleaving.IsMerge MergerEntry.source minCmp ((new sources).remaining .forward)
      (taggedMerge sources) := by
  refine ⟨?_, fun i => ?_⟩
  · refine KWayMerge.mergeAll_pairwise (r := fun a b => minCmp a b ≠ .gt) ?_ ?_ ?_ ?_
    · exact fun a b c => Std.TransCmp.le_trans
    · exact fun a b h => of_decide_eq_true h
    · intro a b h
      have hgt : minCmp a b = .gt := by simpa using h
      rw [ne_eq, Std.OrientedCmp.gt_iff_lt, hgt]
      decide
    · intro s hmem
      obtain ⟨i, hi⟩ := mem_iff_getElem?.1 hmem
      rw [getElem?_mapIdx] at hi
      obtain ⟨s0, hs0, rfl⟩ := map_eq_some_iff.1 hi
      refine pairwise_map.2 ((hs s0 (mem_of_getElem? hs0)).imp fun h => ?_)
      exact minCmp_ne_gt h (le_refl i)
  · have hfilter := KWayMerge.filter_mergeAll (fun a b : MergerEntry K V => decide (minCmp a b ≠ .gt))
      (k := 0) (taggedMerge_source sources) i
    rw [zero_add] at hfilter
    rw [taggedMerge, hfilter, getElem?_mapIdx]
    simp only [remaining, leaf, side, new, bind_none, tagged, Direction.view]
    cases sources[i]? <;> simp [Direction.opposite]

theorem taggedMerge_value (sources : List (List (InternalValue K V))) :
    (taggedMerge sources).map (·.value) = KWayMerge.mergeAll InternalValue.le sources := by
  rw [taggedMerge, KWayMerge.map_mergeAll (taggedMerge_source _)]
  · congr 1
    refine ext_getElem? fun i => ?_
    rw [getElem?_map, getElem?_mapIdx]
    cases sources[i]? <;> simp [comp_def]
  · intro a b hsrc
    rw [Bool.eq_iff_iff, decide_eq_true_iff]
    exact ⟨le_of_minCmp, fun h => minCmp_ne_gt h (le_of_lt hsrc)⟩

end Invariant

end SeekingMerger

namespace MergerRun

variable [LinearOrder K] {r : MergerRun K V} {d : Direction}

/-- The front and the reversed back are a prefix and a disjoint suffix of the merge, and they
are all of it once a call has answered that nothing is left. -/
def Delivered (merged : List (InternalValue K V)) (r : MergerRun K V) : Prop :=
  ∃ rest, merged = r.front ++ rest ++ r.back.reverse ∧ (r.ended = true → rest = [])

/-- The call's own tournament has lost no leaf but its winner to the opposite direction, or it
is empty. -/
def Sighted (r : MergerRun K V) (d : Direction) : Prop :=
  ∀ t, (r.merger.side d).tree = some t → r.spoiled d = true → t.active = 0

instance (r : MergerRun K V) (d : Direction) : Decidable (r.Sighted d) :=
  decidable_of_iff ((r.merger.side d).tree.all (fun t => !r.spoiled d || t.active == 0) = true)
    (by cases h : (r.merger.side d).tree <;> simp [Sighted, h, or_iff_not_imp_left])

structure Invariant (merged : List (InternalValue K V)) (r : MergerRun K V) : Prop where
  ok : r.merger.Ok r.spoiled
  rest : ∃ rest, Interleaving.IsMerge MergerEntry.source minCmp (r.merger.remaining .forward) rest ∧
    merged = r.front ++ rest.map (·.value) ++ r.back.reverse ∧ (r.ended = true → rest = [])

theorem isMerge_backward {m : SeekingMerger K V} {rest : List (MergerEntry K V)} :
    Interleaving.IsMerge MergerEntry.source maxCmp (m.remaining .backward) rest.reverse ↔
      Interleaving.IsMerge MergerEntry.source minCmp (m.remaining .forward) rest := by
  constructor
  · intro h
    have := h.reverse
    rw [reverse_reverse] at this
    exact this.congr fun i => (m.remaining_opposite .backward i).symm
  · intro h
    exact h.reverse.congr fun i => (m.remaining_opposite .forward i).symm

theorem Invariant.step {merged : List (InternalValue K V)} (h : r.Invariant merged)
    (hs : r.Sighted d) : ∃ r', r.step d = some r' ∧ r'.Invariant merged := by
  obtain ⟨rest, hrest, heq, hended⟩ := h.rest
  cases d with
  | forward =>
    obtain ⟨result, m', hcall, hok, hcases⟩ :=
      SeekingMerger.advance_yields (d := .forward) h.ok hrest hs
    have hcall' : call .forward r.merger = some (result, m') := hcall
    refine ⟨_, by rw [MergerRun.step, hcall']; rfl, ?_⟩
    rcases hcases with ⟨rfl, rfl, hm⟩ | ⟨e, rest', rfl, rfl, hm⟩
    · exact ⟨hok, [], hm, heq, fun _ => rfl⟩
    · refine ⟨hok, rest', hm, by simp [yield, heq], fun hend => ?_⟩
      cases hended hend
  | backward =>
    obtain ⟨result, m', hcall, hok, hcases⟩ :=
      SeekingMerger.advance_yields (d := .backward) h.ok (isMerge_backward.2 hrest) hs
    have hcall' : call .backward r.merger = some (result, m') := hcall
    refine ⟨_, by rw [MergerRun.step, hcall']; rfl, ?_⟩
    rcases hcases with ⟨rfl, hnil, hm⟩ | ⟨e, rest', rfl, hcons, hm⟩
    · exact ⟨hok, rest, isMerge_backward.1 hm, heq, fun _ => by simpa using hnil⟩
    · have hlast : rest = rest'.reverse ++ [e] := by
        rw [← reverse_reverse rest, hcons, reverse_cons]
      refine ⟨hok, rest'.reverse, isMerge_backward.1 (by rw [reverse_reverse]; exact hm),
        by simp [yield, heq, hlast], fun hend => ?_⟩
      rw [hended hend] at hcons
      cases hcons

theorem start_invariant {sources : List (List (InternalValue K V))}
    (hs : ∀ s ∈ sources, s.Pairwise (·.le · = true)) :
    (start sources).Invariant (KWayMerge.mergeAll InternalValue.le sources) := by
  refine ⟨SeekingMerger.new_ok sources, SeekingMerger.taggedMerge sources,
    SeekingMerger.taggedMerge_isMerge hs, ?_, nofun⟩
  rw [SeekingMerger.taggedMerge_value]
  simp [start]

/-- Calls in any order, each on a tournament that is sighted, deliver the sorted merge of the
sources. -/
theorem exec_delivered {sources : List (List (InternalValue K V))}
    (hs : ∀ s ∈ sources, s.Pairwise (·.le · = true)) {calls : List Direction}
    (hsighted : Transition.Guarded step Sighted (start sources) calls) :
    ∃ r, Transition.exec step (start sources) calls = some r ∧
      r.Delivered (KWayMerge.mergeAll InternalValue.le sources) := by
  obtain ⟨r, hexec, hinv⟩ := Transition.exec_of_guarded (fun _ _ h hs => Invariant.step h hs)
    hsighted (start_invariant hs)
  obtain ⟨rest, -, heq, hended⟩ := hinv.rest
  exact ⟨r, hexec, rest.map (·.value), heq, fun hend => by rw [hended hend]; rfl⟩

section Example

def item (key : ℕ) : InternalValue ℕ ℕ := ⟨key, 0, .value, key⟩

def itemSources : List (List (InternalValue ℕ ℕ)) :=
  [[item 1], [item 2, item 8, item 9], [item 3, item 6, item 7]]

/-- The forward tournament migrates the only item of the first source, which is not the winner
of the backward tournament; that tournament then loses sight of its winner `8`. -/
theorem exec_not_delivered : ∃ r,
    Transition.exec step (start itemSources) [.backward, .forward, .backward] = some r ∧
      ¬ r.Delivered (KWayMerge.mergeAll InternalValue.le itemSources) := by
  have hyield : (Transition.exec step (start itemSources) [.backward, .forward, .backward]).map
      (fun r => (r.front, r.back)) = some ([item 1], [item 9, item 7]) := rfl
  obtain ⟨r, hr, hends⟩ := map_eq_some_iff.1 hyield
  obtain ⟨hfront, hback⟩ := Prod.mk.inj hends
  refine ⟨r, hr, ?_⟩
  rintro ⟨rest, heq, -⟩
  have hmerged : KWayMerge.mergeAll InternalValue.le itemSources =
      [item 1, item 2, item 3, item 6, item 7, item 8, item 9] := by decide
  rw [hfront, hback, hmerged] at heq
  have hlast := congrArg (fun l => l.reverse[1]?) heq
  simp [item] at hlast

/-- With the same sources, the calls may turn round once the front has taken its share. -/
theorem exec_turning_delivered : ∃ r,
    Transition.exec step (start itemSources)
        [.forward, .forward, .backward, .forward, .backward, .backward] = some r ∧
      r.Delivered (KWayMerge.mergeAll InternalValue.le itemSources) :=
  exec_delivered (by decide) (by decide)

end Example

end MergerRun

end LsmTree
