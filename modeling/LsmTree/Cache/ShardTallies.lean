import LsmTree.Cache.Shard
import LsmTree.Theory.Transition

/-! The tallies of a cache shard. -/
namespace LsmTree

open List

namespace ShardedCache

namespace ShardCore

variable {K V : Type*} [DecidableEq K] {s : ShardCore K V}

def Placed (s : ShardCore K V) (key : K) : Location → Prop
  | .small => key ∈ s.small ∧ key ∉ s.main
  | .main => key ∈ s.main

/-- Every resident entry has a node in its queue, and one located in the small queue has none in
the main queue. -/
def Queued (s : ShardCore K V) : Prop :=
  ∀ key slot, s.map.find key = some slot → s.Placed key slot.loc

/-- The tallies are the weights of what is resident, and these fit the machine's integers. -/
structure Exact (s : ShardCore K V) : Prop where
  small : s.smallBytes.toNat = s.weightIn .small
  main : s.mainBytes.toNat = s.weightIn .main
  fits : s.residentWeight < 2 ^ 64

variable {tally weight : UInt64} {rest : ℕ}

theorem toNat_sub_of_eq (h : tally.toNat = rest + weight.toNat) :
    (tally - weight).toNat = rest := by
  rw [UInt64.toNat_sub_of_le _ _ (UInt64.le_iff_toNat_le.2 (by omega))]
  omega

theorem toNat_add_of_eq (weight : UInt64) (h : tally.toNat = rest)
    (hfits : rest + weight.toNat < 2 ^ 64) : (tally + weight).toNat = rest + weight.toNat := by
  rw [UInt64.toNat_add, h, Nat.mod_eq_of_lt hfits]

def weightBut (s : ShardCore K V) (key : K) (loc : Location) : ℕ :=
  (s.map.erase key).total (Slot.share loc)

variable {key : K} {slot : Slot V}

theorem weightIn_of_find (h : s.map.find key = some slot) (loc : Location) :
    s.weightIn loc = s.weightBut key loc + slot.share loc :=
  KeyTable.total_of_find _ h

theorem weightIn_of_absent (h : s.map.find key = none) (loc : Location) :
    s.weightIn loc = s.weightBut key loc := by
  rw [weightBut, KeyTable.erase_eq_self h, weightIn]

variable {s' : ShardCore K V}

theorem Exact.of_put (s : ShardCore K V) (key : K) (hmap : s'.map = s.map.put key slot)
    (hsmall : s'.smallBytes.toNat = s.weightBut key .small + slot.share .small)
    (hmain : s'.mainBytes.toNat = s.weightBut key .main + slot.share .main)
    (hfits : s.weightBut key .small + s.weightBut key .main + slot.weight.toNat < 2 ^ 64) :
    s'.Exact := by
  have hweight : ∀ loc, s'.weightIn loc = s.weightBut key loc + slot.share loc := by
    intro loc
    rw [weightIn, hmap, KeyTable.total_put, weightBut]
  have hshare : slot.share .small + slot.share .main = slot.weight.toNat := by
    cases hloc : slot.loc <;> simp [Slot.share, hloc]
  refine ⟨by rw [hsmall, hweight], by rw [hmain, hweight], ?_⟩
  rw [residentWeight, hweight, hweight]
  omega

theorem Exact.of_erase (s : ShardCore K V) (key : K) (hmap : s'.map = s.map.erase key)
    (hsmall : s'.smallBytes.toNat = s.weightBut key .small)
    (hmain : s'.mainBytes.toNat = s.weightBut key .main)
    (hfits : s.weightBut key .small + s.weightBut key .main < 2 ^ 64) : s'.Exact := by
  have hweight : ∀ loc, s'.weightIn loc = s.weightBut key loc := by
    intro loc
    rw [weightIn, hmap, weightBut]
  refine ⟨by rw [hsmall, hweight], by rw [hmain, hweight], ?_⟩
  rwa [residentWeight, hweight, hweight]

theorem Exact.split_small (h : s.Exact) (hfind : s.map.find key = some slot)
    (hloc : slot.loc = .small) :
    s.smallBytes.toNat = s.weightBut key .small + slot.weight.toNat ∧
      s.mainBytes.toNat = s.weightBut key .main ∧
      s.weightBut key .small + s.weightBut key .main + slot.weight.toNat < 2 ^ 64 := by
  have hfits := h.fits
  have hsmall := h.small
  have hmain := h.main
  simp only [residentWeight, weightIn_of_find hfind, Slot.share, hloc, if_pos, reduceCtorEq,
    if_false] at hfits hsmall hmain
  omega

theorem Exact.split_main (h : s.Exact) (hfind : s.map.find key = some slot)
    (hloc : slot.loc = .main) :
    s.smallBytes.toNat = s.weightBut key .small ∧
      s.mainBytes.toNat = s.weightBut key .main + slot.weight.toNat ∧
      s.weightBut key .small + s.weightBut key .main + slot.weight.toNat < 2 ^ 64 := by
  have hfits := h.fits
  have hsmall := h.small
  have hmain := h.main
  simp only [residentWeight, weightIn_of_find hfind, Slot.share, hloc, if_pos, reduceCtorEq,
    if_false] at hfits hsmall hmain
  omega

theorem Exact.retouch (h : s.Exact) {slot' : Slot V} (hfind : s.map.find key = some slot)
    (hmap : s'.map = s.map.put key slot') (hweight : slot'.weight = slot.weight)
    (hloc : slot'.loc = slot.loc) (hsmall : s'.smallBytes = s.smallBytes)
    (hmain : s'.mainBytes = s.mainBytes) : s'.Exact := by
  have hshare : ∀ loc, slot'.share loc = slot.share loc := by
    intro loc
    rw [Slot.share, Slot.share, hweight, hloc]
  apply Exact.of_put s key hmap
  · rw [hsmall, h.small, weightIn_of_find hfind, hshare]
  · rw [hmain, h.main, weightIn_of_find hfind, hshare]
  · cases hat : slot.loc with
    | small => exact hweight ▸ (h.split_small hfind hat).2.2
    | main => exact hweight ▸ (h.split_main hfind hat).2.2

structure Sound (s : ShardCore K V) : Prop where
  exact : s.Exact
  queued : s.Queued

theorem sound_new (capacity : UInt64) (ghostCapacity : ℕ) :
    (new capacity ghostCapacity : ShardCore K V).Sound := by
  constructor
  · exact ⟨rfl, rfl, Nat.two_pow_pos 64⟩
  · intro key slot hfind
    simp [new] at hfind

theorem Queued.of_put (s : ShardCore K V) (key : K) (hmap : s'.map = s.map.put key slot)
    (hself : s'.Placed key slot.loc)
    (hothers : ∀ other found, other ≠ key → s.map.find other = some found →
      s'.Placed other found.loc) : s'.Queued := by
  intro other found hfind
  rw [hmap, KeyTable.find_put] at hfind
  by_cases hne : other = key
  · rw [if_pos hne] at hfind
    cases hfind
    rwa [hne]
  · rw [if_neg hne] at hfind
    exact hothers other found hne hfind

theorem Queued.of_erase (s : ShardCore K V) (key : K) (hmap : s'.map = s.map.erase key)
    (hothers : ∀ other found, other ≠ key → s.map.find other = some found →
      s'.Placed other found.loc) : s'.Queued := by
  intro other found hfind
  rw [hmap, KeyTable.find_erase] at hfind
  by_cases hne : other = key
  · rw [if_pos hne] at hfind
    cases hfind
  · rw [if_neg hne] at hfind
    exact hothers other found hne hfind

variable {mainBack : List K}

omit [DecidableEq K] in
theorem Placed.push {other : K} {loc : Location} (h : s.Placed other loc) {smallBack : List K}
    (hsmall : s'.small = s.small ++ smallBack) (hmain : s'.main = s.main ++ mainBack)
    (hfresh : other ∉ mainBack) : s'.Placed other loc := by
  cases loc with
  | small =>
    unfold Placed
    rw [hsmall, hmain]
    exact ⟨mem_append_left _ h.1, not_mem_append h.2 hfresh⟩
  | main =>
    unfold Placed
    rw [hmain]
    exact mem_append_left _ h

variable {stale : List K}

theorem Queued.popSmall (h : s.Queued) {rest : List K} (hqueue : s.small = stale ++ key :: rest)
    (hstale : ∀ other ∈ stale, ∀ found, s.map.find other = some found → found.loc = .main)
    (hsmall : s'.small = rest) (hmain : s'.main = s.main ++ mainBack)
    (hback : ∀ other ∈ mainBack, other = key) :
    ∀ other found, other ≠ key → s.map.find other = some found → s'.Placed other found.loc := by
  intro other found hne hother
  have hplaced := h other found hother
  cases hloc : found.loc with
  | small =>
    rw [hloc, Placed, hqueue] at hplaced
    rw [Placed, hsmall, hmain]
    refine ⟨?_, not_mem_append hplaced.2 fun hmem => hne (hback other hmem)⟩
    rcases mem_append.1 hplaced.1 with hmem | hmem
    · have := hstale other hmem found hother
      rw [hloc] at this
      cases this
    · exact (mem_cons.1 hmem).resolve_left hne
  | main =>
    rw [hloc] at hplaced
    rw [Placed, hmain]
    exact mem_append_left _ hplaced

theorem Queued.popMain (h : s.Queued) {rest back : List K} (hqueue : s.main = stale ++ key :: rest)
    (hstale : ∀ other ∈ stale, s.map.find other = none) (hsmall : s'.small = s.small)
    (hmain : s'.main = rest ++ back) (hback : ∀ other ∈ back, other = key) :
    ∀ other found, other ≠ key → s.map.find other = some found → s'.Placed other found.loc := by
  intro other found hne hother
  have hplaced := h other found hother
  cases hloc : found.loc with
  | small =>
    rw [hloc, Placed, hqueue] at hplaced
    rw [Placed, hsmall, hmain]
    refine ⟨hplaced.1, not_mem_append ?_ fun hmem => hne (hback other hmem)⟩
    intro hmem
    exact hplaced.2 (mem_append_right _ (mem_cons_of_mem _ hmem))
  | main =>
    rw [hloc, Placed, hqueue] at hplaced
    rw [Placed, hmain]
    rcases mem_append.1 hplaced with hmem | hmem
    · have := hstale other hmem
      rw [hother] at this
      cases this
    · exact mem_append_left _ ((mem_cons.1 hmem).resolve_left hne)

theorem Sound.evictFromSmall (h : s.Sound) : s.evictFromSmall.1.Sound := by
  rcases s.evictFromSmall_cases with
    ⟨heq, hstale⟩ | ⟨key, slot, stale, rest, hfind, hloc, hqueue, hstale, hcase⟩
  · rw [heq]
    refine ⟨⟨h.exact.small, h.exact.main, h.exact.fits⟩, fun key slot hfind => ?_⟩
    have hplaced := h.queued key slot hfind
    cases hloc : slot.loc with
    | small =>
      rw [hloc] at hplaced
      have := hstale key hplaced.1 slot hfind
      rw [hloc] at this
      cases this
    | main =>
      rw [hloc] at hplaced
      exact hplaced
  · obtain ⟨hsmall, hmain, hfits⟩ := h.exact.split_small hfind hloc
    rcases hcase with ⟨-, heq⟩ | heq
    · rw [heq]
      constructor
      · apply Exact.of_put s key rfl
        · simpa [Slot.share] using toNat_sub_of_eq hsmall
        · simpa [Slot.share] using toNat_add_of_eq _ hmain (by omega)
        · exact hfits
      · apply Queued.of_put s key rfl
        · simp [Placed]
        · exact h.queued.popSmall hqueue hstale rfl rfl (by simp)
    · rw [heq]
      constructor
      · apply Exact.of_erase s key (by simp)
        · simpa using toNat_sub_of_eq hsmall
        · simpa using hmain
        · omega
      · apply Queued.of_erase s key (by simp)
        exact h.queued.popSmall hqueue hstale (by simp) (show _ = s.main ++ [] by simp) (by simp)

theorem Sound.evictFromMain (h : s.Sound) : s.evictFromMain.1.Sound := by
  rcases s.evictFromMain_cases with
    ⟨heq, hstale⟩ | ⟨key, slot, stale, rest, hfind, hqueue, hstale, hcase⟩
  · rw [heq]
    refine ⟨⟨h.exact.small, h.exact.main, h.exact.fits⟩, fun key slot hfind => ?_⟩
    have hplaced := h.queued key slot hfind
    cases hloc : slot.loc with
    | small =>
      rw [hloc] at hplaced
      exact ⟨hplaced.1, by simp⟩
    | main =>
      rw [hloc] at hplaced
      have := hstale key hplaced
      rw [hfind] at this
      cases this
  · -- a small entry has no node here, so the live node found is one of a main entry
    have hloc : slot.loc = .main := by
      have hplaced := h.queued key slot hfind
      cases hloc : slot.loc with
      | small =>
        rw [hloc, Placed, hqueue] at hplaced
        exact absurd (mem_append_right _ mem_cons_self) hplaced.2
      | main => rfl
    obtain ⟨hsmall, hmain, hfits⟩ := h.exact.split_main hfind hloc
    rcases hcase with ⟨-, heq⟩ | heq
    · rw [heq]
      constructor
      · exact h.exact.retouch hfind rfl rfl rfl rfl rfl
      · apply Queued.of_put s key rfl
        · simp [Placed, hloc]
        · exact h.queued.popMain hqueue hstale rfl rfl (by simp)
    · rw [heq]
      constructor
      · apply Exact.of_erase s key rfl
        · exact hsmall
        · exact toNat_sub_of_eq hmain
        · omega
      · apply Queued.of_erase s key rfl
        exact h.queued.popMain hqueue hstale rfl (append_nil rest).symm (by simp)

theorem Sound.evictToCapacity (h : s.Sound) : s.evictToCapacity.Sound :=
  evictLoop_invariant (fun _ => Sound.evictFromSmall) (fun _ => Sound.evictFromMain) _ h

theorem Sound.get (h : s.Sound) (key : K) : (s.get key).2.Sound := by
  unfold ShardCore.get
  split
  case h_1 => exact h
  case h_2 slot hfind =>
    split
    · constructor
      · exact h.exact.retouch hfind rfl rfl rfl rfl rfl
      · apply Queued.of_put s key rfl
        · exact h.queued key slot hfind
        · exact fun other found _ hother => h.queued other found hother
    · exact h

theorem Sound.remove (h : s.Sound) (key : K) : (s.remove key).Sound := by
  unfold ShardCore.remove
  split
  case h_1 => exact h
  case h_2 slot hfind =>
    split
    case h_1 hloc =>
      obtain ⟨hsmall, hmain, hfits⟩ := h.exact.split_small hfind hloc
      constructor
      · apply Exact.of_erase s key rfl
        · exact toNat_sub_of_eq hsmall
        · exact hmain
        · omega
      · exact Queued.of_erase s key rfl fun other found _ hother => h.queued other found hother
    case h_2 hloc =>
      obtain ⟨hsmall, hmain, hfits⟩ := h.exact.split_main hfind hloc
      constructor
      · apply Exact.of_erase s key rfl
        · exact hsmall
        · exact toNat_sub_of_eq hmain
        · omega
      · exact Queued.of_erase s key rfl fun other found _ hother => h.queued other found hother

theorem Sound.replace (h : s.Sound) (hfind : s.map.find key = some slot) (value : V)
    (priority : Priority) (hfits : s.residentWeight + weight.toNat < 2 ^ 64) :
    (s.replace key slot value weight priority).Sound := by
  have hbut : s.weightBut key .small + s.weightBut key .main + weight.toNat < 2 ^ 64 := by
    rw [residentWeight, weightIn_of_find hfind, weightIn_of_find hfind] at hfits
    omega
  unfold ShardCore.replace
  split
  case isTrue hpromote =>
    obtain ⟨hsmall, hmain, -⟩ := h.exact.split_small hfind hpromote.2
    constructor
    · apply Exact.of_put s key rfl
      · simpa [Slot.share] using toNat_sub_of_eq hsmall
      · simpa [Slot.share] using toNat_add_of_eq _ hmain (by omega)
      · exact hbut
    · apply Queued.of_put s key rfl
      · simp [Placed]
      · intro other found hne hother
        exact (h.queued other found hother).push (append_nil _).symm rfl (by simpa using hne)
  case isFalse =>
    dsimp only
    split
    case h_1 hloc =>
      obtain ⟨hsmall, hmain, -⟩ := h.exact.split_small hfind hloc
      constructor
      · apply Exact.of_put s key rfl
        · have := toNat_add_of_eq weight (toNat_sub_of_eq hsmall) (by omega)
          simpa [Slot.share, hloc, adjust] using this
        · simpa [Slot.share, hloc] using hmain
        · exact hbut
      · apply Queued.of_put s key rfl
        · exact h.queued key slot hfind
        · exact fun other found _ hother => h.queued other found hother
    case h_2 hloc =>
      obtain ⟨hsmall, hmain, -⟩ := h.exact.split_main hfind hloc
      constructor
      · apply Exact.of_put s key rfl
        · simpa [Slot.share, hloc] using hsmall
        · have := toNat_add_of_eq weight (toNat_sub_of_eq hmain) (by omega)
          simpa [Slot.share, hloc, adjust] using this
        · exact hbut
      · apply Queued.of_put s key rfl
        · exact h.queued key slot hfind
        · exact fun other found _ hother => h.queued other found hother

variable {priority : Priority}

theorem Sound.insertFresh (h : s.Sound) (hfind : s.map.find key = none) (value : V)
    (hfits : s.residentWeight + weight.toNat < 2 ^ 64)
    (hfresh : (s.admission key priority).1 = .small → key ∉ s.main) :
    (s.insertFresh key value weight priority).Sound := by
  have hsmall : s.smallBytes.toNat = s.weightBut key .small := by
    rw [h.exact.small, weightIn_of_absent hfind]
  have hmain : s.mainBytes.toNat = s.weightBut key .main := by
    rw [h.exact.main, weightIn_of_absent hfind]
  rw [residentWeight, weightIn_of_absent hfind, weightIn_of_absent hfind] at hfits
  unfold ShardCore.insertFresh
  cases hadmission : s.admission key priority with
  | mk loc freq =>
    rw [hadmission] at hfresh
    cases loc with
    | small =>
      constructor
      · apply Exact.of_put s key rfl
        · simpa [Slot.share] using toNat_add_of_eq weight hsmall (by omega)
        · simpa [Slot.share] using hmain
        · exact hfits
      · apply Queued.of_put s key rfl
        · exact ⟨by simp, hfresh rfl⟩
        · intro other found _ hother
          exact (h.queued other found hother).push rfl (append_nil _).symm (by simp)
    | main =>
      constructor
      · apply Exact.of_put s key rfl
        · simpa [Slot.share] using hsmall
        · simpa [Slot.share] using toNat_add_of_eq weight hmain (by omega)
        · exact hfits
      · apply Queued.of_put s key rfl
        · simp [Placed]
        · intro other found hne hother
          exact (h.queued other found hother).push (append_nil _).symm rfl (by simpa using hne)

theorem admission_small (h : (s.admission key priority).1 = .small) :
    priority = .normal ∧ key ∉ s.ghostSet := by
  cases priority with
  | high => cases h
  | normal =>
    refine ⟨rfl, fun hghost => ?_⟩
    rw [admission, if_pos hghost] at h
    cases h

@[simp] theorem evictFromSmall_capacity : s.evictFromSmall.1.capacity = s.capacity := by
  rcases s.evictFromSmall_cases with ⟨heq, -⟩ | ⟨_, _, _, _, -, -, -, -, ⟨-, heq⟩ | heq⟩
  · rw [heq]
  · rw [heq]
  · rw [heq, pushGhost_capacity]

@[simp] theorem evictFromMain_capacity : s.evictFromMain.1.capacity = s.capacity := by
  rcases s.evictFromMain_cases with ⟨heq, -⟩ | ⟨_, _, _, _, -, -, -, ⟨-, heq⟩ | heq⟩
  all_goals rw [heq]

theorem evictToCapacity_capacity : s.evictToCapacity.capacity = s.capacity :=
  evictLoop_invariant (P := fun t => t.capacity = s.capacity)
    (fun _ ht => by rw [evictFromSmall_capacity, ht])
    (fun _ ht => by rw [evictFromMain_capacity, ht]) _ rfl

theorem Sound.evictToCapacity_le (h : s.Sound) :
    s.evictToCapacity.residentWeight ≤ s.capacity.toNat := by
  have hsound := h.evictToCapacity
  rcases evictLoop_ends (Nat.lt_succ_self s.credit) with hle | ⟨hsmall, hmain⟩
  · have hbytes := toNat_add_of_eq s.evictToCapacity.mainBytes hsound.exact.small (by
      rw [hsound.exact.main]
      exact hsound.exact.fits)
    have hle' := UInt64.le_iff_toNat_le.1 hle
    rw [residentBytes] at hle'
    rw [← evictToCapacity_capacity, residentWeight, ← hsound.exact.main, ← hbytes]
    exact hle'
  · have hnone : ∀ key, s.evictToCapacity.map.find key = none := by
      intro key
      cases hfind : s.evictToCapacity.map.find key with
      | none => rfl
      | some slot =>
        have hplaced := hsound.queued key slot hfind
        cases hloc : slot.loc with
        | small =>
          rw [hloc, Placed, show s.evictToCapacity.small = [] from hsmall] at hplaced
          exact absurd hplaced.1 not_mem_nil
        | main =>
          rw [hloc, Placed, show s.evictToCapacity.main = [] from hmain] at hplaced
          exact absurd hplaced not_mem_nil
    rw [residentWeight, weightIn, weightIn, KeyTable.total_eq_zero _ hnone,
      KeyTable.total_eq_zero _ hnone]
    exact Nat.zero_le _

end ShardCore

/-! ### Runs of a shard -/

inductive Op (K V : Type*) where
  | insert (key : K) (value : V) (weight : UInt64) (priority : Priority)
  | get (key : K)
  | remove (key : K)

namespace ShardCore

variable {K V : Type*} [DecidableEq K]

def step (s : ShardCore K V) : Op K V → Option (ShardCore K V)
  | .insert key value weight priority => some (s.insert key value weight priority)
  | .get key => some (s.get key).2
  | .remove key => some (s.remove key)

/-- The inserts that keep the tallies: the weights add up within the machine's integers, and no key
enters the small queue while the main queue has a node of it. -/
def Admissible (s : ShardCore K V) : Op K V → Prop
  | .insert key _ weight priority =>
    s.residentWeight + weight.toNat < 2 ^ 64 ∧
      (priority = .normal → s.map.find key = none → key ∉ s.ghostSet → key ∉ s.main)
  | .get _ | .remove _ => True

variable {s : ShardCore K V}

theorem insert_eq (s : ShardCore K V) (key : K) (value : V) (weight : UInt64)
    (priority : Priority) : ∃ t : ShardCore K V,
      s.insert key value weight priority = t.evictToCapacity ∧ t.capacity = s.capacity ∧
      (s.Sound → s.Admissible (.insert key value weight priority) → t.Sound) := by
  unfold insert
  cases hfind : s.map.find key with
  | some slot =>
    refine ⟨s.replace key slot value weight priority, rfl, ?_, ?_⟩
    · unfold replace
      split
      · rfl
      · dsimp only
        split <;> rfl
    · exact fun hs hok => hs.replace hfind value priority hok.1
  | none =>
    refine ⟨s.insertFresh key value weight priority, rfl, ?_, ?_⟩
    · unfold insertFresh
      dsimp only
      split <;> rfl
    · intro hs hok
      apply hs.insertFresh hfind value hok.1
      intro hsmall
      obtain ⟨hnormal, hghost⟩ := admission_small hsmall
      exact hok.2 hnormal hfind hghost

theorem Sound.step (h : s.Sound) {op : Op K V} (hok : s.Admissible op) {s' : ShardCore K V}
    (hstep : s.step op = some s') : s'.Sound ∧ s'.capacity = s.capacity := by
  cases op with
  | insert key value weight priority =>
    cases hstep
    obtain ⟨t, heq, hcapacity, hsound⟩ := s.insert_eq key value weight priority
    rw [heq, evictToCapacity_capacity]
    exact ⟨(hsound h hok).evictToCapacity, hcapacity⟩
  | get key =>
    cases hstep
    refine ⟨h.get key, ?_⟩
    unfold ShardCore.get
    split
    · rfl
    · split <;> rfl
  | remove key =>
    cases hstep
    refine ⟨h.remove key, ?_⟩
    unfold ShardCore.remove
    split
    · rfl
    · split <;> rfl

theorem Exact.weight_le (h : s.Exact) {key : K} {slot : Slot V}
    (hfind : s.map.find key = some slot) : slot.weight ≤ s.bytes slot.loc := by
  apply UInt64.le_iff_toNat_le.2
  cases hloc : slot.loc with
  | small =>
    have := (h.split_small hfind hloc).1
    rw [bytes]
    omega
  | main =>
    have := (h.split_main hfind hloc).2.1
    rw [bytes]
    omega

/-- In every state that admissible operations reach, both tallies are the weights of what is
resident, so that taking out any entry does not underflow, and an insert, of whatever weight, ends
within the capacity. -/
theorem run_tallies {capacity : UInt64} {ghostCapacity : ℕ} {ops : List (Op K V)}
    (h : Transition.Run step Admissible (new capacity ghostCapacity) ops s) :
    s.smallBytes.toNat = s.weightIn .small ∧ s.mainBytes.toNat = s.weightIn .main ∧
      (∀ key slot, s.map.find key = some slot → slot.weight ≤ s.bytes slot.loc) ∧
      ∀ key value weight priority, s.Admissible (.insert key value weight priority) →
        (s.insert key value weight priority).residentWeight ≤ capacity.toNat := by
  obtain ⟨hsound, hcapacity⟩ : s.Sound ∧ s.capacity = capacity := by
    refine @Transition.Run.invariant _ _ _ _ (fun t => t.Sound ∧ t.capacity = capacity)
      (fun s op s' hs hok hstep => ?_) _ _ _ h ⟨sound_new capacity ghostCapacity, rfl⟩
    obtain ⟨hsound, hcapacity⟩ := hs.1.step hok hstep
    exact ⟨hsound, hcapacity.trans hs.2⟩
  refine ⟨hsound.exact.small, hsound.exact.main, fun key slot => hsound.exact.weight_le, ?_⟩
  intro key value weight priority hok
  obtain ⟨t, heq, htcapacity, ht⟩ := s.insert_eq key value weight priority
  rw [heq, ← hcapacity, ← htcapacity]
  exact (ht hsound hok).evictToCapacity_le

instance (s : ShardCore K V) (op : Op K V) : Decidable (s.Admissible op) := by
  cases op <;> simp only [Admissible] <;> infer_instance

/-- Key 1 is pinned in the main queue, removed, and inserted again with normal priority. -/
def reinserted : List (Op ℕ Unit) :=
  [.insert 1 () 5 .high, .remove 1, .insert 1 () 5 .normal, .insert 2 () 96 .high]

/-- The insert of key 2 pops the stale main node of key 1 and takes the weight of an entry in the
small queue from the main tally; removing key 2 then underflows it. -/
theorem reinserted_tallies :
    (∃ s, Transition.exec step (new 100 16) reinserted = some s ∧
      s.smallBytes = 5 ∧ s.weightIn .small = 0 ∧ s.mainBytes = 91 ∧ s.weightIn .main = 96 ∧
      ¬ (96 : UInt64) ≤ s.mainBytes ∧ (s.remove 2).mainBytes.toNat = 2 ^ 64 - 5) ∧
    ¬ Transition.Guarded step Admissible (new 100 16) reinserted := by
  refine ⟨⟨_, rfl, ?_⟩, ?_⟩
  · decide +kernel
  · decide +kernel

theorem fullShard_tallies :
    ∃ s : ShardCore ℕ Unit, Transition.exec step (new 100 16)
        [.insert 1 () 60 .normal, .insert 2 () 60 .normal, .get 2, .remove 1] = some s ∧
      s.smallBytes.toNat = s.weightIn .small ∧
      (s.insert 3 () 70 .high).residentWeight ≤ 100 := by
  obtain ⟨s, hs⟩ : ∃ s : ShardCore ℕ Unit, Transition.exec step (new 100 16)
      [.insert 1 () 60 .normal, .insert 2 () 60 .normal, .get 2, .remove 1] = some s := ⟨_, rfl⟩
  have h := run_tallies (Transition.run_of_guarded (by decide +kernel) hs)
  cases hs
  exact ⟨_, rfl, h.1, h.2.2.2 3 () 70 .high (by decide +kernel)⟩

end ShardCore

end ShardedCache

end LsmTree
