import LsmTree.Theory.Transition

/-! `SuperVersions`: the history of versions that serves snapshot reads. -/
namespace LsmTree

open List Option

/-- A super version: its memtables and tables, and the numbers the history works with. -/
structure HeldVersion (P : Type*) where
  contents : P
  id : ℕ
  retentionFloor : ℕ
  seqno : ℕ
  deriving DecidableEq, Repr

inductive RetentionEffect where
  | keep
  | gcBelow (watermark : ℕ)
  | dropsData
  deriving DecidableEq, Repr

/-- What becomes of `persist_change`: an error, a record appended to the log, or a new snapshot. -/
inductive PersistOutcome where
  | failed
  | appended
  | rotated
  deriving DecidableEq, Repr

structure SnapshotBelowRetention where
  requested : ℕ
  oldestRetained : ℕ
  deriving DecidableEq, Repr

variable {P : Type*}

def HeldVersion.setRetentionFloor (v : HeldVersion P) (floor : ℕ) : HeldVersion P :=
  if floor ≤ v.retentionFloor then v else { v with retentionFloor := floor }

/-- The floor an install at `seqno` asks for: never above the install itself. -/
def RetentionEffect.floor (seqno : ℕ) : RetentionEffect → Option ℕ
  | .keep => none
  | .gcBelow 0 => none
  | .gcBelow (watermark + 1) => some (min watermark seqno)
  | .dropsData => some seqno

def rposition {α : Type*} (p : α → Bool) : List α → Option ℕ
  | [] => none
  | x :: xs =>
    match rposition p xs with
    | some i => some (i + 1)
    | none => if p x then some 0 else none

structure SuperVersions (P : Type*) where
  /-- oldest first -/
  versions : List (HeldVersion P)
  snapshotId : ℕ
  /-- the lock-free mirror of the newest version -/
  latest : HeldVersion P
  deriving DecidableEq, Repr

namespace SuperVersions

variable (s : SuperVersions P)

/-- The one version of an opened tree sits at its retention floor. -/
def new (v : HeldVersion P) (snapshotId : ℕ) : SuperVersions P :=
  let initial := { v with seqno := v.retentionFloor }
  ⟨[initial], snapshotId, initial⟩

def appendVersion (v : HeldVersion P) : SuperVersions P :=
  { s with versions := s.versions ++ [v], latest := v }

def replaceLatestVersion (v : HeldVersion P) : SuperVersions P :=
  match s.versions with
  | [] => s
  | _ :: _ => { s with versions := s.versions.dropLast ++ [v], latest := v }

/-- The version to install: never below the version before it. -/
def nextVersion (prior next : HeldVersion P) (seqno : ℕ) (retention : RetentionEffect) :
    HeldVersion P :=
  let seqno := max seqno prior.seqno
  let next := { next with seqno := seqno }
  match retention.floor seqno with
  | none => next
  | some floor => next.setRetentionFloor floor

/-- `upgrade_version_with_seqno`; nothing where it would panic on an empty history. -/
def upgradeVersionWithSeqno (f : HeldVersion P → Option (HeldVersion P)) (seqno : ℕ)
    (retention : RetentionEffect) (persist : PersistOutcome) : Option (SuperVersions P) :=
  s.versions.getLast?.map fun prior =>
    match f prior with
    | none => s
    | some next =>
      let next := nextVersion prior next seqno retention
      match persist with
      | .failed => s
      | .appended => s.appendVersion next
      | .rotated => { s with snapshotId := next.id }.appendVersion next

/-- The loop of `maintenance`: it stops where a version's file cannot be removed. -/
def evict (removeFails : ℕ → Bool) (snapshotId : ℕ) :
    ℕ → List (HeldVersion P) → List (HeldVersion P)
  | 0, versions => versions
  | _ + 1, [] => []
  | n + 1, head :: versions =>
    if head.id ≠ snapshotId ∧ removeFails head.id = true then head :: versions
    else evict removeFails snapshotId n versions

def maintenance (gcWatermark : ℕ) (removeFails : ℕ → Bool) : SuperVersions P :=
  if gcWatermark = 0 then s
  else if s.versions.length - 1 < 1 then s
  else match rposition (fun v : HeldVersion P => decide (v.seqno < gcWatermark)) s.versions with
    | none => s
    | some hiIdx => { s with versions := evict removeFails s.snapshotId hiIdx s.versions }

def drainObsoleteToLatest : SuperVersions P :=
  { s with versions := s.versions.drop (s.versions.length - 1) }

def retentionFloor : Option ℕ := s.versions.getLast?.map (·.retentionFloor)

def newestBelow (seqno : ℕ) (versions : List (HeldVersion P)) : Option (HeldVersion P) :=
  versions.reverse.find? fun v => decide (v.seqno < seqno)

/-- `get_version_for_snapshot`; nothing where it would panic on an empty history. -/
def getVersionForSnapshot (seqno : ℕ) : Option (Except SnapshotBelowRetention (HeldVersion P)) :=
  s.versions.head?.map fun oldest =>
    if seqno = 0 then .ok oldest
    else if seqno ≤ oldest.seqno then .error ⟨seqno, oldest.seqno⟩
    else .ok ((newestBelow seqno s.versions).getD oldest)

/-- `Tree::snapshot_for_read`, which asks the mirror first. -/
def snapshotForRead (seqno : ℕ) : Option (Except SnapshotBelowRetention (HeldVersion P)) :=
  if s.latest.seqno < seqno then some (.ok s.latest) else s.getVersionForSnapshot seqno

end SuperVersions

structure SnapshotHistory (P : Type*) where
  store : SuperVersions P
  installed : List (HeldVersion P)

namespace SnapshotHistory

open SuperVersions

inductive Event (P : Type*) where
  | upgrade (f : HeldVersion P → Option (HeldVersion P)) (seqno : ℕ)
      (retention : RetentionEffect) (persist : PersistOutcome)
  | append (v : HeldVersion P)
  | replaceLatest (v : HeldVersion P)
  | maintenance (gcWatermark : ℕ) (removeFails : ℕ → Bool)
  | drain

def start (v : HeldVersion P) (snapshotId : ℕ) : SnapshotHistory P :=
  ⟨new v snapshotId, (new v snapshotId).versions⟩

def step (h : SnapshotHistory P) : Event P → Option (SnapshotHistory P)
  | .upgrade f seqno retention persist =>
    (h.store.upgradeVersionWithSeqno f seqno retention persist).map fun store =>
      ⟨store, h.installed ++ store.versions.drop h.store.versions.length⟩
  | .append v => some ⟨h.store.appendVersion v, h.installed ++ [v]⟩
  | .replaceLatest v =>
    some ⟨h.store.replaceLatestVersion v,
      if h.store.versions.isEmpty then h.installed else h.installed.dropLast ++ [v]⟩
  | .maintenance gcWatermark removeFails =>
    some { h with store := h.store.maintenance gcWatermark removeFails }
  | .drain => some { h with store := h.store.drainObsoleteToLatest }

/-- How the tree uses the history: a transition carries the floor over or, as `clear` does, drops
all data; an appended version continues the history. -/
def admissible (h : SnapshotHistory P) : Event P → Bool
  | .upgrade f _ retention _ =>
    h.store.versions.getLast?.all fun prior => (f prior).all fun next =>
      decide (next.retentionFloor = prior.retentionFloor ∨
        next.retentionFloor ≤ prior.retentionFloor ∧ retention = .dropsData)
  | .append v =>
    h.store.versions.getLast?.all fun prior =>
      decide (prior.seqno ≤ v.seqno ∧ prior.retentionFloor ≤ v.retentionFloor ∧
        v.retentionFloor ≤ v.seqno)
  | .replaceLatest v =>
    h.store.versions.getLast?.all fun prior =>
      decide (v.seqno = prior.seqno ∧ v.retentionFloor = prior.retentionFloor)
  | .maintenance _ _ => true
  | .drain => true

end SnapshotHistory

theorem rposition_spec {α : Type*} {p : α → Bool} {l : List α} {i : ℕ}
    (h : rposition p l = some i) : ∃ x, l[i]? = some x ∧ p x = true := by
  induction l generalizing i with
  | nil => cases h
  | cons x xs ih =>
    simp only [rposition] at h
    split at h
    · rename_i j hj
      cases h
      exact ih hj
    · split at h
      · rename_i hp
        cases h
        exact ⟨x, rfl, hp⟩
      · cases h

namespace SuperVersions

variable {s : SuperVersions P} {seqno : ℕ}

theorem evict_eq_drop (removeFails : ℕ → Bool) (snapshotId n : ℕ)
    (versions : List (HeldVersion P)) :
    ∃ m ≤ n, evict removeFails snapshotId n versions = versions.drop m := by
  induction n generalizing versions with
  | zero => exact ⟨0, le_rfl, rfl⟩
  | succ n ih =>
    cases versions with
    | nil => exact ⟨0, by omega, rfl⟩
    | cons head versions =>
      simp only [evict]
      split
      · exact ⟨0, by omega, rfl⟩
      · obtain ⟨m, hm, heq⟩ := ih versions
        exact ⟨m + 1, by omega, heq⟩

theorem maintenance_eq (s : SuperVersions P) (gcWatermark : ℕ) (removeFails : ℕ → Bool) :
    ∃ n, s.maintenance gcWatermark removeFails = { s with versions := s.versions.drop n } ∧
      (n = 0 ∨ ∃ i ≥ n, ∃ v, s.versions[i]? = some v ∧ v.seqno < gcWatermark) := by
  have hnone : s = { s with versions := s.versions.drop 0 } := rfl
  unfold maintenance
  split_ifs
  · exact ⟨0, hnone, Or.inl rfl⟩
  · exact ⟨0, hnone, Or.inl rfl⟩
  · split
    · exact ⟨0, hnone, Or.inl rfl⟩
    · rename_i hiIdx hhi
      obtain ⟨v, hv, hlt⟩ := rposition_spec hhi
      obtain ⟨n, hn, heq⟩ := evict_eq_drop removeFails s.snapshotId hiIdx s.versions
      exact ⟨n, by rw [heq], Or.inr ⟨hiIdx, hn, v, hv, of_decide_eq_true hlt⟩⟩

theorem newestBelow_append (older versions : List (HeldVersion P)) :
    newestBelow seqno (older ++ versions) =
      (newestBelow seqno versions).or (newestBelow seqno older) := by
  simp [newestBelow]

variable {versions : List (HeldVersion P)} {v : HeldVersion P}

theorem newestBelow_isSome (hv : v ∈ versions) (h : v.seqno < seqno) :
    (newestBelow seqno versions).isSome = true := by
  rw [newestBelow, find?_isSome]
  exact ⟨v, by simpa using hv, by simpa using h⟩

theorem newestBelow_eq_none :
    newestBelow seqno versions = none ↔ ∀ v ∈ versions, seqno ≤ v.seqno := by
  simp [newestBelow]

theorem newestBelow_suffix {older : List (HeldVersion P)} (h : newestBelow seqno versions = some v) :
    newestBelow seqno (older ++ versions) = some v := by
  rw [newestBelow_append, h, some_or]

theorem newestBelow_last {init : List (HeldVersion P)} (h : v.seqno < seqno) :
    newestBelow seqno (init ++ [v]) = some v := newestBelow_suffix (by simp [newestBelow, h])

theorem getVersionForSnapshot_eq {oldest : HeldVersion P} {newer : List (HeldVersion P)}
    (hs : s.versions = oldest :: newer)
    (ho : s.versions.Pairwise fun a b => a.seqno ≤ b.seqno) (hpos : 0 < seqno) :
    s.getVersionForSnapshot seqno = some (match newestBelow seqno s.versions with
      | some v => .ok v
      | none => .error ⟨seqno, oldest.seqno⟩) := by
  simp only [getVersionForSnapshot, hs, head?_cons, map_some, if_neg (by omega : seqno ≠ 0)]
  rw [hs, pairwise_cons] at ho
  by_cases hle : seqno ≤ oldest.seqno
  · have hnone : newestBelow seqno (oldest :: newer) = none := by
      rw [newestBelow_eq_none]
      intro v hv
      rcases mem_cons.1 hv with rfl | hv
      · exact hle
      · exact Nat.le_trans hle (ho.1 v hv)
    rw [if_pos hle, hnone]
  · obtain ⟨v, hv⟩ := isSome_iff_exists.1
      (newestBelow_isSome (mem_cons_self (a := oldest) (l := newer)) (Nat.lt_of_not_le hle))
    rw [if_neg hle, hv]
    rfl

end SuperVersions

namespace SnapshotHistory

open SuperVersions

variable {h h' : SnapshotHistory P} {e : Event P} {seqno : ℕ}

/-- The retained versions are the newest that were installed, and the floor is not above the newest
of them. -/
structure Invariant (h : SnapshotHistory P) : Prop where
  retained : ∃ older, h.installed = older ++ h.store.versions
  latest : ∃ init, h.store.versions = init ++ [h.store.latest]
  ordered : h.installed.Pairwise fun a b => a.seqno ≤ b.seqno
  floor : h.store.latest.retentionFloor ≤ h.store.latest.seqno

namespace Invariant

theorem getLast? (hi : h.Invariant) : h.store.versions.getLast? = some h.store.latest := by
  obtain ⟨init, hinit⟩ := hi.latest
  rw [hinit, getLast?_concat]

theorem versions_ordered (hi : h.Invariant) :
    h.store.versions.Pairwise fun a b => a.seqno ≤ b.seqno := by
  obtain ⟨older, holder⟩ := hi.retained
  have ho := hi.ordered
  rw [holder, pairwise_append] at ho
  exact ho.2.1

theorem le_latest (hi : h.Invariant) : ∀ v ∈ h.installed, v.seqno ≤ h.store.latest.seqno := by
  obtain ⟨older, holder⟩ := hi.retained
  obtain ⟨init, hinit⟩ := hi.latest
  have ho := hi.ordered
  rw [holder, hinit, ← append_assoc] at ho ⊢
  intro v hv
  rcases mem_append.1 hv with hv | hv
  · exact (pairwise_append.1 ho).2.2 v hv _ (by simp)
  · rw [mem_singleton.1 hv]

variable {v : HeldVersion P}

theorem push (hi : h.Invariant) {store : SuperVersions P}
    (hv : store.versions = h.store.versions ++ [v]) (hl : store.latest = v)
    (hs : h.store.latest.seqno ≤ v.seqno) (hf : v.retentionFloor ≤ v.seqno) :
    Invariant ⟨store, h.installed ++ [v]⟩ := by
  obtain ⟨older, holder⟩ := hi.retained
  refine ⟨⟨older, by rw [holder, hv, append_assoc]⟩, ⟨h.store.versions, by rw [hv, hl]⟩, ?_,
    by rw [hl]; exact hf⟩
  rw [pairwise_append]
  refine ⟨hi.ordered, pairwise_singleton _ _, fun a ha b hb => ?_⟩
  rw [mem_singleton.1 hb]
  exact Nat.le_trans (hi.le_latest a ha) hs

theorem trim (hi : h.Invariant) {n : ℕ} (hn : n < h.store.versions.length) :
    Invariant { h with store := { h.store with versions := h.store.versions.drop n } } := by
  obtain ⟨older, holder⟩ := hi.retained
  obtain ⟨init, hinit⟩ := hi.latest
  refine ⟨⟨older ++ h.store.versions.take n, ?_⟩, ⟨init.drop n, ?_⟩, hi.ordered, hi.floor⟩
  · rw [holder, append_assoc, take_append_drop]
  · rw [hinit, length_append, length_singleton] at hn
    rw [hinit, drop_append_of_le_length (by omega)]

theorem length_pos (hi : h.Invariant) : 0 < h.store.versions.length := by
  obtain ⟨init, hinit⟩ := hi.latest
  simp [hinit]

theorem replace (hi : h.Invariant) (hs : v.seqno = h.store.latest.seqno)
    (hf : v.retentionFloor = h.store.latest.retentionFloor) :
    ∃ h', h.step (.replaceLatest v) = some h' ∧ h'.Invariant ∧
      h.store.latest.retentionFloor ≤ h'.store.latest.retentionFloor := by
  obtain ⟨older, holder⟩ := hi.retained
  obtain ⟨init, hinit⟩ := hi.latest
  have hstore : h.store.replaceLatestVersion v =
      { h.store with versions := init ++ [v], latest := v } := by
    unfold replaceLatestVersion
    cases hvs : h.store.versions with
    | nil => simp [hvs] at hinit
    | cons x xs => simp only [← hvs, hinit, dropLast_concat]
  have hinst : h.installed.dropLast = older ++ init := by
    rw [holder, hinit, ← append_assoc, dropLast_concat]
  have hne : h.store.versions.isEmpty = false := by simp [hinit]
  have hord := hi.ordered
  rw [holder, hinit, ← append_assoc, pairwise_append] at hord
  refine ⟨_, rfl, ⟨⟨older, ?_⟩, ⟨init, ?_⟩, ?_, ?_⟩, ?_⟩
  · simp only [hstore, hne, hinst, Bool.false_eq_true, if_false, append_assoc]
  · simp only [hstore]
  · simp only [hne, hinst, Bool.false_eq_true, if_false]
    rw [pairwise_append]
    refine ⟨hord.1, pairwise_singleton _ _, fun a ha b hb => ?_⟩
    rw [mem_singleton.1 hb, hs]
    exact hord.2.2 a ha _ (by simp)
  · simp only [hstore, hs, hf, hi.floor]
  · simp only [hstore, hf, le_refl]

variable {retention : RetentionEffect}

theorem nextVersion_floor (hi : h.Invariant) {next : HeldVersion P} (seqno : ℕ)
    (hnext : next.retentionFloor = h.store.latest.retentionFloor ∨
      next.retentionFloor ≤ h.store.latest.retentionFloor ∧ retention = .dropsData) :
    (nextVersion h.store.latest next seqno retention).retentionFloor ≤
        (nextVersion h.store.latest next seqno retention).seqno ∧
      h.store.latest.retentionFloor ≤
        (nextVersion h.store.latest next seqno retention).retentionFloor ∧
      h.store.latest.seqno ≤ (nextVersion h.store.latest next seqno retention).seqno := by
  have hf := hi.floor
  cases retention with
  | keep =>
    simp only [nextVersion, RetentionEffect.floor, reduceCtorEq, and_false, or_false] at hnext ⊢
    omega
  | gcBelow watermark =>
    simp only [reduceCtorEq, and_false, or_false] at hnext
    cases watermark with
    | zero =>
      simp only [nextVersion, RetentionEffect.floor]
      omega
    | succ w =>
      simp only [nextVersion, RetentionEffect.floor, HeldVersion.setRetentionFloor]
      split_ifs <;> simp only <;> omega
  | dropsData =>
    simp only [nextVersion, RetentionEffect.floor, HeldVersion.setRetentionFloor]
    split_ifs <;> simp only <;> omega

theorem upgrade (hi : h.Invariant) {f : HeldVersion P → Option (HeldVersion P)} {seqno : ℕ}
    {persist : PersistOutcome} (hok : h.admissible (.upgrade f seqno retention persist) = true) :
    ∃ h', h.step (.upgrade f seqno retention persist) = some h' ∧ h'.Invariant ∧
      h.store.latest.retentionFloor ≤ h'.store.latest.retentionFloor := by
  simp only [admissible, hi.getLast?, all_some] at hok
  simp only [step, upgradeVersionWithSeqno, hi.getLast?, map_some]
  have hsame : Invariant ⟨h.store, h.installed ++ h.store.versions.drop h.store.versions.length⟩ := by
    rw [drop_length, append_nil]
    exact hi
  cases hf : f h.store.latest with
  | none => exact ⟨_, rfl, hsame, le_rfl⟩
  | some next =>
    rw [hf, all_some, decide_eq_true_eq] at hok
    obtain ⟨hle, hmono, hseq⟩ := hi.nextVersion_floor seqno hok
    have hpush : ∀ id, Invariant ⟨{ h.store with snapshotId := id }.appendVersion
        (nextVersion h.store.latest next seqno retention), h.installed ++
          ({ h.store with snapshotId := id }.appendVersion
            (nextVersion h.store.latest next seqno retention)).versions.drop
              h.store.versions.length⟩ := by
      intro id
      simp only [appendVersion, drop_left]
      exact hi.push rfl rfl hseq hle
    cases persist with
    | failed => exact ⟨_, rfl, hsame, le_rfl⟩
    | appended => exact ⟨_, rfl, hpush h.store.snapshotId, hmono⟩
    | rotated => exact ⟨_, rfl, hpush _, hmono⟩

theorem step (hi : h.Invariant) (hok : h.admissible e = true) :
    ∃ h', h.step e = some h' ∧ h'.Invariant ∧
      h.store.latest.retentionFloor ≤ h'.store.latest.retentionFloor := by
  cases e with
  | upgrade f seqno retention persist => exact hi.upgrade hok
  | append v =>
    simp only [admissible, hi.getLast?, all_some, decide_eq_true_eq] at hok
    exact ⟨_, rfl, hi.push rfl rfl hok.1 hok.2.2, hok.2.1⟩
  | replaceLatest v =>
    simp only [admissible, hi.getLast?, all_some, decide_eq_true_eq] at hok
    exact hi.replace hok.1 hok.2
  | maintenance gcWatermark removeFails =>
    obtain ⟨n, heq, hn⟩ := h.store.maintenance_eq gcWatermark removeFails
    refine ⟨_, rfl, ?_, ?_⟩
    · rw [heq]
      refine hi.trim ?_
      rcases hn with rfl | ⟨i, hi', v, hv, -⟩
      · exact hi.length_pos
      · have := (List.getElem?_eq_some_iff.1 hv).1
        omega
    · rw [heq]
  | drain =>
    have := hi.length_pos
    exact ⟨_, rfl, hi.trim (by omega), le_rfl⟩

end Invariant

theorem start_invariant (v : HeldVersion P) (snapshotId : ℕ) : (start v snapshotId).Invariant :=
  ⟨⟨[], rfl⟩, ⟨[], rfl⟩, pairwise_singleton _ _, le_rfl⟩

theorem Invariant.getVersionForSnapshot_ok (hi : h.Invariant) (hpos : 0 < seqno)
    {v : HeldVersion P} (hv : newestBelow seqno h.store.versions = some v) :
    h.store.getVersionForSnapshot seqno = some (.ok v) := by
  cases hs : h.store.versions with
  | nil => simp [hs, newestBelow] at hv
  | cons oldest newer => rw [getVersionForSnapshot_eq hs hi.versions_ordered hpos, hv]

theorem Invariant.getVersionForSnapshot_error (hi : h.Invariant) (hpos : 0 < seqno)
    (hv : newestBelow seqno h.store.versions = none) :
    ∃ err, h.store.getVersionForSnapshot seqno = some (.error err) := by
  cases hs : h.store.versions with
  | nil =>
    have := hi.length_pos
    simp [hs] at this
  | cons oldest newer =>
    rw [getVersionForSnapshot_eq hs hi.versions_ordered hpos, hv]
    exact ⟨_, rfl⟩

theorem Invariant.maintenance_keeps (hi : h.Invariant) {gcWatermark : ℕ}
    (removeFails : ℕ → Bool) (hw : gcWatermark ≤ seqno) :
    (h.store.maintenance gcWatermark removeFails).getVersionForSnapshot seqno =
      h.store.getVersionForSnapshot seqno := by
  obtain ⟨n, heq, hn⟩ := h.store.maintenance_eq gcWatermark removeFails
  rcases hn with rfl | ⟨i, hin, v, hv, hlt⟩
  · rw [heq]
    rfl
  · -- a version below the watermark stays, so the newest below the snapshot does
    have hmem : v ∈ h.store.versions.drop n := by
      refine mem_iff_getElem?.2 ⟨i - n, ?_⟩
      rw [getElem?_drop, show n + (i - n) = i by omega, hv]
    have hbelow : v.seqno < seqno := by omega
    obtain ⟨u, hu⟩ := isSome_iff_exists.1 (newestBelow_isSome hmem hbelow)
    have hall : newestBelow seqno h.store.versions = some u := by
      rw [← take_append_drop n h.store.versions]
      exact newestBelow_suffix hu
    have hlen := (List.getElem?_eq_some_iff.1 hv).1
    have htrim := hi.trim (show n < h.store.versions.length by omega)
    rw [heq, hi.getVersionForSnapshot_ok (by omega) hall]
    exact htrim.getVersionForSnapshot_ok (by omega) hu

theorem Invariant.snapshotForRead_eq (hi : h.Invariant) (seqno : ℕ) :
    h.store.snapshotForRead seqno = h.store.getVersionForSnapshot seqno := by
  unfold snapshotForRead
  split
  · rename_i hlt
    obtain ⟨init, hinit⟩ := hi.latest
    have hnew : newestBelow seqno h.store.versions = some h.store.latest := by
      rw [hinit]
      exact newestBelow_last hlt
    rw [hi.getVersionForSnapshot_ok (by omega) hnew]
  · rfl

structure Serves (h : SnapshotHistory P) : Prop where
  nonempty : h.store.versions ≠ []
  ordered : h.store.versions.Pairwise fun a b => a.seqno ≤ b.seqno
  floor : ∀ e, h.admissible e = true → ∃ h', h.step e = some h' ∧
    ∀ floor ∈ h.store.retentionFloor, ∃ floor' ∈ h'.store.retentionFloor, floor ≤ floor'
  failedPersist : ∀ f seqno retention, h.step (.upgrade f seqno retention .failed) = some h
  maintenance : ∀ gcWatermark removeFails h',
    h.step (.maintenance gcWatermark removeFails) = some h' → ∀ seqno ≥ gcWatermark, ∀ v,
      h.store.getVersionForSnapshot seqno = some (.ok v) →
        h'.store.getVersionForSnapshot seqno = some (.ok v)
  answer : ∀ seqno > 0,
    (∃ v, h.store.getVersionForSnapshot seqno = some (.ok v) ∧
      newestBelow seqno h.store.versions = some v ∧ newestBelow seqno h.installed = some v) ∨
    (∃ err, h.store.getVersionForSnapshot seqno = some (.error err) ∧
      newestBelow seqno h.store.versions = none)
  fastPath : ∀ seqno, h.store.snapshotForRead seqno = h.store.getVersionForSnapshot seqno

theorem Invariant.serves (hi : h.Invariant) : h.Serves := by
  have hfloor : ∀ {h : SnapshotHistory P}, h.Invariant →
      h.store.retentionFloor = some h.store.latest.retentionFloor := by
    intro h hi
    rw [SuperVersions.retentionFloor, hi.getLast?, map_some]
  constructor
  case nonempty => exact ne_nil_of_length_pos hi.length_pos
  case ordered => exact hi.versions_ordered
  case floor =>
    intro e hok
    obtain ⟨h', hstep, hi', hle⟩ := hi.step hok
    refine ⟨h', hstep, fun floor hf => ⟨h'.store.latest.retentionFloor, hfloor hi', ?_⟩⟩
    rw [hfloor hi] at hf
    cases hf
    exact hle
  case failedPersist =>
    intro f seqno retention
    simp only [SnapshotHistory.step, upgradeVersionWithSeqno, hi.getLast?, map_some]
    cases f h.store.latest <;> simp
  case maintenance =>
    intro gcWatermark removeFails h' hstep seqno hw v hv
    cases hstep
    rw [hi.maintenance_keeps removeFails hw, hv]
  case answer =>
    intro seqno hpos
    cases hv : newestBelow seqno h.store.versions with
    | some v =>
      obtain ⟨older, holder⟩ := hi.retained
      refine Or.inl ⟨v, hi.getVersionForSnapshot_ok hpos hv, rfl, ?_⟩
      rw [holder]
      exact newestBelow_suffix hv
    | none =>
      obtain ⟨err, herr⟩ := hi.getVersionForSnapshot_error hpos hv
      exact Or.inr ⟨err, herr, rfl⟩
  case fastPath => exact hi.snapshotForRead_eq

/-- In every run of the history from an opened tree: it stays non-empty and ordered, the floor
does not fall, a failed persist changes nothing, maintenance keeps every snapshot at or above its
watermark, and every snapshot but the first is answered by the version that was current at it or
refused. -/
theorem run_serves {v : HeldVersion P} {snapshotId : ℕ} {events : List (Event P)}
    (hrun : Transition.Run step (fun h e => h.admissible e = true) (start v snapshotId) events h) :
    h.Serves := by
  refine Invariant.serves (hrun.invariant (fun s e s' hs hok hstep => ?_)
    (start_invariant v snapshotId))
  obtain ⟨mid, hmid, hinv, -⟩ := hs.step hok
  rw [hstep] at hmid
  cases hmid
  exact hinv

section Examples

/-- An opened tree with a retention floor: snapshot 0 gets a version installed above it, and a
version appended out of order leaves the history unordered. -/
theorem start_answers_zero :
    (start ⟨(), 1, 5, 0⟩ 1).store.getVersionForSnapshot 0 = some (.ok ⟨(), 1, 5, 5⟩) ∧
    newestBelow 0 (start (⟨(), 1, 5, 0⟩ : HeldVersion Unit) 1).store.versions = none ∧
    ((start ⟨(), 1, 5, 0⟩ 1).step (.append ⟨(), 2, 5, 4⟩)).any fun h =>
      decide ¬ h.store.versions.Pairwise fun a b => a.seqno ≤ b.seqno := by decide

/-- A flush, a failed flush, a collecting compaction, a rotation, maintenance, and a `clear`. -/
def sampleEvents : List (Event Unit) :=
  [.upgrade some 7 .keep .appended, .upgrade some 8 .keep .failed,
    .upgrade some 9 (.gcBelow 8) .rotated, .replaceLatest ⟨(), 1, 7, 9⟩,
    .maintenance 8 fun _ => false,
    .upgrade (fun v => some { v with id := v.id + 1, retentionFloor := 0 }) 12 .dropsData .appended]

theorem sampleEvents_serve :
    ∃ h, Transition.exec step (start ⟨(), 1, 5, 0⟩ 1) sampleEvents = some h ∧ h.Serves := by
  have hsome : (Transition.exec step (start ⟨(), 1, 5, 0⟩ 1) sampleEvents).isSome = true := by
    decide
  have hguard : Transition.Guarded step (fun h e => h.admissible e = true)
      (start ⟨(), 1, 5, 0⟩ 1) sampleEvents := by decide
  obtain ⟨h, hexec⟩ := isSome_iff_exists.1 hsome
  exact ⟨h, hexec, run_serves (Transition.run_of_guarded hguard hexec)⟩

end Examples

end SnapshotHistory

end LsmTree
