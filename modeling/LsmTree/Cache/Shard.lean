import LsmTree.Theory.KeyTable

/-! One shard of the block cache: S3-FIFO over a small and a main queue with a ghost queue of
evicted keys. -/
namespace LsmTree

namespace ShardedCache

inductive Location where
  | small | main
  deriving DecidableEq, Repr

inductive Priority where
  | normal | high
  deriving DecidableEq, Repr

def maxFreq : ℕ := 3

structure Slot (V : Type*) where
  value : V
  weight : UInt64
  freq : ℕ
  loc : Location
  deriving DecidableEq

structure ShardCore (K V : Type*) where
  map : KeyTable K (Slot V)
  small : List K
  main : List K
  ghost : List K
  ghostSet : Finset K
  smallBytes : UInt64
  mainBytes : UInt64
  capacity : UInt64
  smallTarget : UInt64
  ghostCapacity : ℕ

/-- `adjust`, in wrapping arithmetic as all tallies -/
def adjust (total old new : UInt64) : UInt64 := total - old + new

namespace ShardCore

variable {K V : Type*}

def new (capacity : UInt64) (ghostCapacity : ℕ) : ShardCore K V where
  map := .empty
  small := []
  main := []
  ghost := []
  ghostSet := ∅
  smallBytes := 0
  mainBytes := 0
  capacity := capacity
  smallTarget := max (capacity / 10) 1
  ghostCapacity := ghostCapacity

def residentBytes (s : ShardCore K V) : UInt64 := s.smallBytes + s.mainBytes

def bytes (s : ShardCore K V) : Location → UInt64
  | .small => s.smallBytes
  | .main => s.mainBytes

/-- Pops a queue up to its first live node. -/
def popLive {α : Type*} (slotOf : K → Option α) : List K → Option (K × α × List K)
  | [] => none
  | key :: rest =>
    match slotOf key with
    | none => popLive slotOf rest
    | some slot => some (key, slot, rest)

variable [DecidableEq K]

def get (s : ShardCore K V) (key : K) : Option V × ShardCore K V :=
  match s.map.find key with
  | none => (none, s)
  | some slot =>
    if slot.freq < maxFreq then
      (some slot.value, { s with map := s.map.put key { slot with freq := slot.freq + 1 } })
    else (some slot.value, s)

def trimGhost (ghostCapacity : ℕ) : List K → Finset K → List K × Finset K
  | [], set => ([], set)
  | old :: rest, set =>
    if ghostCapacity < (old :: rest).length then trimGhost ghostCapacity rest (set.erase old)
    else (old :: rest, set)

def pushGhost (s : ShardCore K V) (key : K) : ShardCore K V :=
  if s.ghostCapacity = 0 then s
  else
    let ghost := if key ∈ s.ghostSet then s.ghost else s.ghost ++ [key]
    let trimmed := trimGhost s.ghostCapacity ghost (insert key s.ghostSet)
    { s with ghost := trimmed.1, ghostSet := trimmed.2 }

def evictFromSmall (s : ShardCore K V) : ShardCore K V × Bool :=
  -- a node whose entry was promoted to the main queue is stale here
  match popLive (fun key => (s.map.find key).filter fun slot => slot.loc = .small) s.small with
  | none => ({ s with small := [] }, false)
  | some (key, slot, rest) =>
    if 0 < slot.freq then
      ({ s with
          map := s.map.put key { slot with freq := 0, loc := .main }
          small := rest
          main := s.main ++ [key]
          smallBytes := s.smallBytes - slot.weight
          mainBytes := s.mainBytes + slot.weight }, true)
    else
      (pushGhost
        { s with
          map := s.map.erase key
          small := rest
          smallBytes := s.smallBytes - slot.weight } key, true)

def evictFromMain (s : ShardCore K V) : ShardCore K V × Bool :=
  -- any resident key counts as live, wherever its entry is located
  match popLive s.map.find s.main with
  | none => ({ s with main := [] }, false)
  | some (key, slot, rest) =>
    if 0 < slot.freq then
      ({ s with
          map := s.map.put key { slot with freq := slot.freq - 1 }
          main := rest ++ [key] }, true)
    else
      ({ s with
          map := s.map.erase key
          main := rest
          mainBytes := s.mainBytes - slot.weight }, true)

def orElse (attempt : ShardCore K V × Bool) (next : ShardCore K V → ShardCore K V × Bool) :
    ShardCore K V × Bool :=
  if attempt.2 then attempt else next attempt.1

def evictOne (s : ShardCore K V) : ShardCore K V × Bool :=
  if s.mainBytes = 0 ∨ s.smallTarget ≤ s.smallBytes then orElse s.evictFromSmall evictFromMain
  else orElse s.evictFromMain evictFromSmall

/-- The loop of `evict_to_capacity` for at most the given number of turns. -/
def evictLoop : ℕ → ShardCore K V → ShardCore K V
  | 0, s => s
  | fuel + 1, s =>
    if s.capacity < s.residentBytes then
      if s.evictOne.2 then evictLoop fuel s.evictOne.1 else s.evictOne.1
    else s

def credit (s : ShardCore K V) : ℕ :=
  s.map.total fun slot => slot.freq + if slot.loc = .small then 2 else 1

def evictToCapacity (s : ShardCore K V) : ShardCore K V := evictLoop (s.credit + 1) s

def replace (s : ShardCore K V) (key : K) (slot : Slot V) (value : V) (weight : UInt64)
    (priority : Priority) : ShardCore K V :=
  if priority = .high ∧ slot.loc = .small then
    { s with
      map := s.map.put key ⟨value, weight, maxFreq, .main⟩
      smallBytes := s.smallBytes - slot.weight
      mainBytes := s.mainBytes + weight
      main := s.main ++ [key] }
  else
    let map := s.map.put key { slot with value := value, weight := weight }
    match slot.loc with
    | .small => { s with map := map, smallBytes := adjust s.smallBytes slot.weight weight }
    | .main => { s with map := map, mainBytes := adjust s.mainBytes slot.weight weight }

def admission (s : ShardCore K V) (key : K) : Priority → Location × ℕ
  | .high => (.main, maxFreq)
  | .normal => if key ∈ s.ghostSet then (.main, 0) else (.small, 0)

def insertFresh (s : ShardCore K V) (key : K) (value : V) (weight : UInt64) (priority : Priority) :
    ShardCore K V :=
  let (loc, freq) := s.admission key priority
  let ghostSet := if priority = .normal then s.ghostSet.erase key else s.ghostSet
  let map := s.map.put key ⟨value, weight, freq, loc⟩
  match loc with
  | .small =>
    { s with
      map := map, ghostSet := ghostSet
      smallBytes := s.smallBytes + weight, small := s.small ++ [key] }
  | .main =>
    { s with
      map := map, ghostSet := ghostSet
      mainBytes := s.mainBytes + weight, main := s.main ++ [key] }

def insert (s : ShardCore K V) (key : K) (value : V) (weight : UInt64) (priority : Priority) :
    ShardCore K V :=
  evictToCapacity <|
    match s.map.find key with
    | some slot => s.replace key slot value weight priority
    | none => s.insertFresh key value weight priority

def remove (s : ShardCore K V) (key : K) : ShardCore K V :=
  match s.map.find key with
  | none => s
  | some slot =>
    match slot.loc with
    | .small => { s with map := s.map.erase key, smallBytes := s.smallBytes - slot.weight }
    | .main => { s with map := s.map.erase key, mainBytes := s.mainBytes - slot.weight }

/-! ### What is resident, and what the tallies say of it -/

end ShardCore

def Slot.share {V : Type*} (loc : Location) (slot : Slot V) : ℕ :=
  if slot.loc = loc then slot.weight.toNat else 0

namespace ShardCore

variable {K V : Type*}

def weightIn (s : ShardCore K V) (loc : Location) : ℕ := s.map.total (Slot.share loc)

def residentWeight (s : ShardCore K V) : ℕ := s.weightIn .small + s.weightIn .main

variable {α : Type*} {queue : List K}

theorem popLive_none {slotOf : K → Option α} (h : popLive slotOf queue = none) :
    ∀ key ∈ queue, slotOf key = none := by
  induction queue with
  | nil => simp
  | cons key rest ih =>
    cases hkey : slotOf key with
    | some slot => simp [popLive, hkey] at h
    | none =>
      have hrest : popLive slotOf rest = none := by simpa [popLive, hkey] using h
      intro other hother
      rcases List.mem_cons.1 hother with rfl | hother
      · exact hkey
      · exact ih hrest other hother

variable {key : K}

theorem popLive_some {slotOf : K → Option α} {rest : List K} {slot : α}
    (h : popLive slotOf queue = some (key, slot, rest)) :
    slotOf key = some slot ∧
      ∃ stale, queue = stale ++ key :: rest ∧ ∀ other ∈ stale, slotOf other = none := by
  induction queue with
  | nil => cases h
  | cons first queue ih =>
    cases hfirst : slotOf first with
    | some found =>
      obtain ⟨rfl, rfl, rfl⟩ : first = key ∧ found = slot ∧ queue = rest := by
        simpa [popLive, hfirst] using h
      exact ⟨hfirst, [], rfl, by simp⟩
    | none =>
      obtain ⟨hslot, stale, rfl, hstale⟩ := ih (by simpa [popLive, hfirst] using h)
      refine ⟨hslot, first :: stale, rfl, fun other hother => ?_⟩
      rcases List.mem_cons.1 hother with rfl | hother
      · exact hfirst
      · exact hstale other hother

variable [DecidableEq K]

section PushGhost

variable (s : ShardCore K V) (key : K)

@[simp] theorem pushGhost_map : (s.pushGhost key).map = s.map := by
  unfold pushGhost
  split <;> rfl

@[simp] theorem pushGhost_small : (s.pushGhost key).small = s.small := by
  unfold pushGhost
  split <;> rfl

@[simp] theorem pushGhost_main : (s.pushGhost key).main = s.main := by
  unfold pushGhost
  split <;> rfl

@[simp] theorem pushGhost_smallBytes : (s.pushGhost key).smallBytes = s.smallBytes := by
  unfold pushGhost
  split <;> rfl

@[simp] theorem pushGhost_mainBytes : (s.pushGhost key).mainBytes = s.mainBytes := by
  unfold pushGhost
  split <;> rfl

@[simp] theorem pushGhost_capacity : (s.pushGhost key).capacity = s.capacity := by
  unfold pushGhost
  split <;> rfl

end PushGhost

variable {s : ShardCore K V}

theorem evictFromSmall_cases (s : ShardCore K V) :
    (s.evictFromSmall = ({ s with small := [] }, false) ∧
      ∀ key ∈ s.small, ∀ slot, s.map.find key = some slot → slot.loc = .main) ∨
    ∃ key slot stale rest, s.map.find key = some slot ∧ slot.loc = .small ∧
      s.small = stale ++ key :: rest ∧
      (∀ other ∈ stale, ∀ found, s.map.find other = some found → found.loc = .main) ∧
      ((0 < slot.freq ∧ s.evictFromSmall =
        ({ s with
            map := s.map.put key { slot with freq := 0, loc := .main }
            small := rest
            main := s.main ++ [key]
            smallBytes := s.smallBytes - slot.weight
            mainBytes := s.mainBytes + slot.weight }, true)) ∨
      s.evictFromSmall =
        (pushGhost
          { s with
            map := s.map.erase key
            small := rest
            smallBytes := s.smallBytes - slot.weight } key, true)) := by
  have hmain : ∀ key, (s.map.find key).filter (fun slot => decide (slot.loc = .small)) = none →
      ∀ slot, s.map.find key = some slot → slot.loc = .main := by
    intro key hkey slot hfind
    cases hloc : slot.loc with
    | small => simp [hfind, hloc] at hkey
    | main => rfl
  unfold evictFromSmall
  split
  case h_1 hpop => exact Or.inl ⟨rfl, fun key hkey => hmain key (popLive_none hpop key hkey)⟩
  case h_2 key slot rest hpop =>
    obtain ⟨hslot, stale, hqueue, hstale⟩ := popLive_some hpop
    obtain ⟨hfind, hloc⟩ := Option.filter_eq_some_iff.1 hslot
    refine Or.inr ⟨key, slot, stale, rest, hfind, of_decide_eq_true hloc, hqueue,
      fun other hother => hmain other (hstale other hother), ?_⟩
    split
    case isTrue hfreq => exact Or.inl ⟨hfreq, rfl⟩
    case isFalse => exact Or.inr rfl

theorem evictFromMain_cases (s : ShardCore K V) :
    (s.evictFromMain = ({ s with main := [] }, false) ∧ ∀ key ∈ s.main, s.map.find key = none) ∨
    ∃ key slot stale rest, s.map.find key = some slot ∧ s.main = stale ++ key :: rest ∧
      (∀ other ∈ stale, s.map.find other = none) ∧
      ((0 < slot.freq ∧ s.evictFromMain =
        ({ s with
            map := s.map.put key { slot with freq := slot.freq - 1 }
            main := rest ++ [key] }, true)) ∨
      s.evictFromMain =
        ({ s with
            map := s.map.erase key
            main := rest
            mainBytes := s.mainBytes - slot.weight }, true)) := by
  unfold evictFromMain
  split
  case h_1 hpop => exact Or.inl ⟨rfl, popLive_none hpop⟩
  case h_2 key slot rest hpop =>
    obtain ⟨hfind, stale, hqueue, hstale⟩ := popLive_some hpop
    refine Or.inr ⟨key, slot, stale, rest, hfind, hqueue, hstale, ?_⟩
    split
    case isTrue hfreq => exact Or.inl ⟨hfreq, rfl⟩
    case isFalse => exact Or.inr rfl

/-! ### The eviction loop ends -/

variable {slot : Slot V} {s' : ShardCore K V}

theorem credit_put_lt {slot' : Slot V} (hfind : s.map.find key = some slot)
    (hlt : (slot'.freq + if slot'.loc = .small then 2 else 1) <
      slot.freq + if slot.loc = .small then 2 else 1) (hmap : s'.map = s.map.put key slot') :
    s'.credit < s.credit := by
  unfold credit
  rw [hmap, KeyTable.total_put, KeyTable.total_of_find _ hfind]
  omega

theorem credit_erase_lt (hfind : s.map.find key = some slot) (hmap : s'.map = s.map.erase key) :
    s'.credit < s.credit := by
  unfold credit
  rw [hmap, KeyTable.total_of_find _ hfind]
  split <;> omega

def Spends (attempt : ShardCore K V × Bool) (s : ShardCore K V) : Prop :=
  attempt.1.credit + (if attempt.2 then 1 else 0) ≤ s.credit

theorem spends_evictFromSmall (s : ShardCore K V) : Spends s.evictFromSmall s := by
  rcases s.evictFromSmall_cases with
    ⟨heq, -⟩ | ⟨key, slot, stale, rest, hfind, hloc, -, -, ⟨hfreq, heq⟩ | heq⟩
  · rw [heq]
    exact le_refl _
  · rw [heq]
    exact credit_put_lt hfind (by simp [hloc]) rfl
  · rw [heq]
    exact credit_erase_lt hfind (by simp)

theorem spends_evictFromMain (s : ShardCore K V) : Spends s.evictFromMain s := by
  rcases s.evictFromMain_cases with
    ⟨heq, -⟩ | ⟨key, slot, stale, rest, hfind, -, -, ⟨hfreq, heq⟩ | heq⟩
  · rw [heq]
    exact le_refl _
  · rw [heq]
    exact credit_put_lt hfind (by dsimp only; omega) rfl
  · rw [heq]
    exact credit_erase_lt hfind rfl

omit [DecidableEq K] in
theorem Spends.orElse {attempt : ShardCore K V × Bool}
    {next : ShardCore K V → ShardCore K V × Bool} (h : Spends attempt s)
    (hnext : ∀ t, Spends (next t) t) : Spends (orElse attempt next) s := by
  unfold ShardCore.orElse
  split
  · exact h
  · exact (hnext attempt.1).trans ((Nat.le_add_right _ _).trans h)

theorem spends_evictOne (s : ShardCore K V) : Spends s.evictOne s := by
  unfold evictOne
  split
  · exact (spends_evictFromSmall s).orElse spends_evictFromMain
  · exact (spends_evictFromMain s).orElse spends_evictFromSmall

theorem evictFromSmall_dry (h : s.evictFromSmall.2 = false) :
    s.evictFromSmall.1 = { s with small := [] } := by
  rcases s.evictFromSmall_cases with
    ⟨heq, -⟩ | ⟨key, slot, stale, rest, -, -, -, -, ⟨-, heq⟩ | heq⟩
  · rw [heq]
  · simp [heq] at h
  · simp [heq] at h

theorem evictFromMain_dry (h : s.evictFromMain.2 = false) :
    s.evictFromMain.1 = { s with main := [] } := by
  rcases s.evictFromMain_cases with
    ⟨heq, -⟩ | ⟨key, slot, stale, rest, -, -, -, ⟨-, heq⟩ | heq⟩
  · rw [heq]
  · simp [heq] at h
  · simp [heq] at h

theorem evictOne_dry (h : s.evictOne.2 = false) :
    s.evictOne.1 = { s with small := [], main := [] } := by
  unfold evictOne orElse at h ⊢
  by_cases hprefer : s.mainBytes = 0 ∨ s.smallTarget ≤ s.smallBytes
  · rw [if_pos hprefer] at h ⊢
    by_cases hfirst : s.evictFromSmall.2 = true
    · rw [if_pos hfirst, hfirst] at h
      cases h
    · rw [if_neg hfirst] at h ⊢
      rw [evictFromMain_dry h, evictFromSmall_dry (Bool.eq_false_iff.2 hfirst)]
  · rw [if_neg hprefer] at h ⊢
    by_cases hfirst : s.evictFromMain.2 = true
    · rw [if_pos hfirst, hfirst] at h
      cases h
    · rw [if_neg hfirst] at h ⊢
      rw [evictFromSmall_dry h, evictFromMain_dry (Bool.eq_false_iff.2 hfirst)]

theorem evictLoop_ends {fuel : ℕ} (h : s.credit < fuel) :
    (evictLoop fuel s).residentBytes ≤ (evictLoop fuel s).capacity ∨
      (evictLoop fuel s).small = [] ∧ (evictLoop fuel s).main = [] := by
  induction fuel generalizing s with
  | zero => cases h
  | succ fuel ih =>
    unfold evictLoop
    by_cases hover : s.capacity < s.residentBytes
    · rw [if_pos hover]
      by_cases htry : s.evictOne.2 = true
      · rw [if_pos htry]
        have hspent := spends_evictOne s
        unfold Spends at hspent
        rw [if_pos htry] at hspent
        exact ih (by omega)
      · rw [if_neg htry, evictOne_dry (Bool.eq_false_iff.2 htry)]
        exact Or.inr ⟨rfl, rfl⟩
    · rw [if_neg hover]
      exact Or.inl (UInt64.not_lt.1 hover)

theorem evictLoop_invariant {P : ShardCore K V → Prop}
    (hsmall : ∀ s, P s → P s.evictFromSmall.1) (hmain : ∀ s, P s → P s.evictFromMain.1)
    (fuel : ℕ) (hs : P s) : P (evictLoop fuel s) := by
  have hone : ∀ s, P s → P s.evictOne.1 := by
    intro s hs
    unfold evictOne orElse
    split <;> split
    · exact hsmall s hs
    · exact hmain _ (hsmall s hs)
    · exact hmain s hs
    · exact hsmall _ (hmain s hs)
  induction fuel generalizing s with
  | zero => exact hs
  | succ fuel ih =>
    unfold evictLoop
    split
    · split
      · exact ih (hone s hs)
      · exact hone s hs
    · exact hs

end ShardCore

end ShardedCache

end LsmTree
