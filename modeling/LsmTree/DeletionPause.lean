import LsmTree.Theory.Transition

/-! The gate that defers file deletions while a checkpoint is taken. -/
namespace LsmTree

open Function

/-- Where a call of `acquire`, with the later drop of its guard, or of `try_enqueue` stands. -/
inductive PauseCall where
  | idle
  /-- the guard is alive -/
  | held
  /-- the drop took the counter to zero and wants the lock -/
  | waiting
  /-- the drop has the lock and reads the counter -/
  | checking
  /-- the counter was zero under the lock -/
  | taking
  | dropped
  /-- `try_enqueue` saw a guard and wants the lock -/
  | seen
  | rechecking
  | pushing
  | refused
  | queued
  deriving DecidableEq, Repr

/-- `DeletionPause` with the calls on it. The last four fields are history; an item is named by the
call that pushed it. -/
structure DeletionPause where
  active : ℕ
  lock : Option ℕ
  queue : List ℕ
  calls : ℕ → PauseCall
  alive : List ℕ
  enqueued : List ℕ
  aliveAt : ℕ → List ℕ
  taken : List ℕ

inductive PauseAction where
  | acquire (call : ℕ)
  | tryEnqueue (call : ℕ)
  /-- the next atomic operation of a call -/
  | advance (call : ℕ)

namespace DeletionPause

def initial : DeletionPause := ⟨0, none, [], fun _ => .idle, [], [], fun _ => [], []⟩

def put (s : DeletionPause) (c : ℕ) (state : PauseCall) : DeletionPause :=
  { s with calls := update s.calls c state }

/-- One atomic operation. The counter has 32 bits; the last operation in a lock region releases
the lock. -/
def step (s : DeletionPause) : PauseAction → Option DeletionPause
  | .acquire c =>
    if s.calls c = .idle then
      some { s.put c .held with active := (s.active + 1) % 2 ^ 32, alive := c :: s.alive }
    else none
  | .tryEnqueue c =>
    if s.calls c = .idle then some (s.put c (if s.active = 0 then .refused else .seen)) else none
  | .advance c =>
    match s.calls c with
    | .held =>
      some { s.put c (if s.active = 1 then .waiting else .dropped) with
        active := (s.active + (2 ^ 32 - 1)) % 2 ^ 32, alive := s.alive.erase c }
    | .waiting => if s.lock = none then some { s.put c .checking with lock := some c } else none
    | .checking =>
      if s.active = 0 then some (s.put c .taking)
      else some { s.put c .dropped with lock := none }
    | .taking =>
      some { s.put c .dropped with lock := none, queue := [], taken := s.taken ++ s.queue }
    | .seen => if s.lock = none then some { s.put c .rechecking with lock := some c } else none
    | .rechecking =>
      if s.active = 0 then some { s.put c .refused with lock := none } else some (s.put c .pushing)
    | .pushing =>
      some { s.put c .queued with
        lock := none, queue := s.queue ++ [c], enqueued := s.enqueued ++ [c],
        aliveAt := update s.aliveAt c s.alive }
    | .idle | .dropped | .refused | .queued => none

def Fits (s : DeletionPause) : PauseAction → Prop
  | .acquire _ => s.alive.length + 1 < 2 ^ 32
  | _ => True

def Dropping (call : PauseCall) : Prop := call = .waiting ∨ call = .checking ∨ call = .taking

def Locked (call : PauseCall) : Prop :=
  call = .checking ∨ call = .taking ∨ call = .rechecking ∨ call = .pushing

structure Invariant (s : DeletionPause) : Prop where
  active : s.active = s.alive.length
  small : s.alive.length < 2 ^ 32
  nodup : s.alive.Nodup
  alive : ∀ c, c ∈ s.alive ↔ s.calls c = .held
  lock : ∀ c, s.lock = some c ↔ Locked (s.calls c)
  content : s.taken ++ s.queue = s.enqueued
  queued : ∀ c, c ∈ s.enqueued ↔ s.calls c = .queued
  once : s.enqueued.Nodup
  /-- whoever may leave an item behind has a drop to come that looks at the queue -/
  drained : s.queue ≠ [] → 0 < s.active ∨ ∃ c, Dropping (s.calls c)
  pushing : ∀ c, s.calls c = .pushing → 0 < s.active ∨ ∃ c, Dropping (s.calls c)
  recorded : ∀ x ∈ s.enqueued, ∀ g ∈ s.aliveAt x, s.calls g ≠ .idle
  released : ∀ x ∈ s.taken, ∀ g ∈ s.aliveAt x, s.calls g ≠ .held
  quiet : ∀ c, s.calls c = .taking → ∀ x ∈ s.enqueued, ∀ g ∈ s.aliveAt x, s.calls g ≠ .held

theorem initial_invariant : initial.Invariant := by
  constructor <;> simp [initial, Locked]

variable {s s' : DeletionPause} {c : ℕ} {state : PauseCall} {lock : Option ℕ}

@[simp] theorem put_calls (d : ℕ) : (s.put c state).calls d = if d = c then state else s.calls d :=
  update_apply ..

theorem Invariant.unlocked (h : s.Invariant) (hfree : s.lock = none) (d : ℕ) :
    ¬Locked (s.calls d) := by
  intro hd
  rw [(h.lock d).2 hd] at hfree
  cases hfree

theorem Invariant.holder (h : s.Invariant) (hc : Locked (s.calls c)) {d : ℕ}
    (hd : Locked (s.calls d)) : d = c :=
  Option.some.inj (((h.lock d).2 hd).symm.trans ((h.lock c).2 hc))

theorem Invariant.move (h : s.Invariant) (hold : s.calls c ≠ .held ∧ s.calls c ≠ .queued)
    (hnew : state ≠ .held ∧ state ≠ .queued ∧ state ≠ .idle)
    (hlock : ∀ d, lock = some d ↔ Locked ((s.put c state).calls d))
    (hdrop : Dropping (s.calls c) → Dropping state ∨ 0 < s.active)
    (hpush : state = .pushing → 0 < s.active) (htake : state = .taking → s.active = 0) :
    Invariant { s.put c state with lock := lock } := by
  have hdropping : (0 < s.active ∨ ∃ d, Dropping (s.calls d)) →
      0 < s.active ∨ ∃ d, Dropping ((s.put c state).calls d) := by
    rintro (hpos | ⟨d, hd⟩)
    · exact Or.inl hpos
    · by_cases hdc : d = c
      · subst hdc
        exact (hdrop hd).symm.imp_right fun hst => ⟨d, by simpa using hst⟩
      · exact Or.inr ⟨d, by simpa [hdc] using hd⟩
  have hheld : ∀ d, (s.put c state).calls d = .held ↔ s.calls d = .held := by grind [put_calls]
  constructor
  case active => exact h.active
  case small => exact h.small
  case nodup => exact h.nodup
  case alive => exact fun d => (h.alive d).trans (hheld d).symm
  case lock => exact hlock
  case content => exact h.content
  case queued => grind [put_calls, h.queued, put]
  case once => exact h.once
  case drained => exact fun hq => hdropping (h.drained hq)
  case pushing =>
    intro d hd
    by_cases hdc : d = c
    · subst hdc
      exact Or.inl (hpush (by simpa using hd))
    · exact hdropping (h.pushing d (by simpa [hdc] using hd))
  case recorded =>
    intro x hx g hg
    have := h.recorded x hx g hg
    grind [put_calls]
  case released => exact fun x hx g hg hgh => h.released x hx g hg ((hheld g).1 hgh)
  case quiet =>
    intro d hd x hx g hg hgh
    rw [hheld] at hgh
    by_cases hdc : d = c
    · subst hdc
      have hzero := htake (by simpa using hd)
      rw [h.active, List.length_eq_zero_iff] at hzero
      have := (h.alive g).2 hgh
      rw [hzero] at this
      cases this
    · exact h.quiet d (by simpa [hdc] using hd) x hx g hg hgh

theorem Invariant.acquire (h : s.Invariant) (hc : s.calls c = .idle)
    (hfits : s.alive.length + 1 < 2 ^ 32) :
    Invariant { s.put c .held with active := (s.active + 1) % 2 ^ 32, alive := c :: s.alive } := by
  have hactive : (s.active + 1) % 2 ^ 32 = s.alive.length + 1 := by
    rw [h.active, Nat.mod_eq_of_lt hfits]
  have hpos : 0 < (s.active + 1) % 2 ^ 32 := by omega
  constructor
  case active => exact hactive
  case small => exact hfits
  case nodup => exact List.nodup_cons.2 ⟨by rw [h.alive, hc]; exact nofun, h.nodup⟩
  case content => exact h.content
  case once => exact h.once
  case drained => exact fun _ => Or.inl hpos
  case pushing => exact fun _ _ => Or.inl hpos
  case alive => grind [put_calls, h.alive]
  case lock => grind [put_calls, h.lock, put, Locked]
  case queued => grind [put_calls, h.queued, put]
  case recorded =>
    intro x hx g hg
    have := h.recorded x hx g hg
    grind [put_calls]
  case released =>
    intro x hx g hg
    have hrec := h.recorded x (h.content ▸ List.mem_append_left _ hx) g hg
    have hrel := h.released x hx g hg
    grind [put_calls]
  case quiet =>
    intro d hd x hx g hg
    have hrec := h.recorded x hx g hg
    have hquiet := h.quiet d (by grind [put_calls]) x hx g hg
    grind [put_calls]

theorem Invariant.release (h : s.Invariant) (hc : s.calls c = .held) :
    Invariant { s.put c (if s.active = 1 then .waiting else .dropped) with
      active := (s.active + (2 ^ 32 - 1)) % 2 ^ 32, alive := s.alive.erase c } := by
  have hmem := (h.alive c).2 hc
  have hlen := List.length_erase_of_mem hmem
  have hpos := List.length_pos_of_mem hmem
  have hactive : (s.active + (2 ^ 32 - 1)) % 2 ^ 32 = (s.alive.erase c).length := by
    have := h.active
    have := h.small
    omega
  obtain ⟨state, hstate⟩ : ∃ state, state =
    if s.active = 1 then PauseCall.waiting else .dropped := ⟨_, rfl⟩
  have hlast : 0 < (s.active + (2 ^ 32 - 1)) % 2 ^ 32 ∨
      ∃ d, Dropping ((s.put c state).calls d) := by
    by_cases hone : s.active = 1
    · exact Or.inr ⟨c, by simp [hstate, hone, Dropping]⟩
    · have := h.active
      exact Or.inl (by omega)
  rw [← hstate]
  have hnew : state = .waiting ∨ state = .dropped := by grind
  constructor
  case active => exact hactive
  case small => exact Nat.lt_of_le_of_lt (hlen ▸ Nat.sub_le _ _) h.small
  case nodup => exact h.nodup.erase c
  case content => exact h.content
  case once => exact h.once
  case drained => exact fun _ => hlast
  case pushing => exact fun _ _ => hlast
  case alive => grind [put_calls, h.alive, h.nodup.mem_erase_iff]
  case lock => grind [put_calls, h.lock, put, Locked]
  case queued => grind [put_calls, h.queued, put]
  case recorded =>
    intro x hx g hg
    have := h.recorded x hx g hg
    grind [put_calls]
  case released =>
    intro x hx g hg
    have := h.released x hx g hg
    grind [put_calls]
  case quiet =>
    intro d hd x hx g hg
    have := h.quiet d (by grind [put_calls]) x hx g hg
    grind [put_calls]

theorem Invariant.take (h : s.Invariant) (hc : s.calls c = .taking) :
    Invariant { s.put c .dropped with lock := none, queue := [], taken := s.taken ++ s.queue } := by
  have hholder : ∀ d, Locked (s.calls d) → d = c := fun d hd => h.holder (Or.inr (Or.inl hc)) hd
  constructor
  case active => exact h.active
  case small => exact h.small
  case nodup => exact h.nodup
  case content => rw [List.append_nil]; exact h.content
  case once => exact h.once
  case drained => exact fun hq => absurd rfl hq
  case alive => grind [put_calls, h.alive, put]
  case lock => grind [put_calls, put, Locked]
  case queued => grind [put_calls, h.queued, put]
  case pushing => grind [put_calls, Locked]
  case quiet => grind [put_calls, Locked]
  case recorded =>
    intro x hx g hg
    have := h.recorded x hx g hg
    grind [put_calls]
  case released =>
    intro x hx g hg
    have := h.quiet c hc x (h.content ▸ hx) g hg
    grind [put_calls]

theorem Invariant.push (h : s.Invariant) (hc : s.calls c = .pushing) :
    Invariant { s.put c .queued with
      lock := none, queue := s.queue ++ [c], enqueued := s.enqueued ++ [c],
      aliveAt := update s.aliveAt c s.alive } := by
  have hholder : ∀ d, Locked (s.calls d) → d = c := fun d hd =>
    h.holder (Or.inr (Or.inr (Or.inr hc))) hd
  have hfresh : c ∉ s.enqueued := by rw [h.queued, hc]; exact nofun
  have hdropping : 0 < s.active ∨ ∃ d, Dropping ((s.put c .queued).calls d) := by
    refine (h.pushing c hc).imp_right fun ⟨d, hd⟩ => ⟨d, ?_⟩
    grind [put_calls, Dropping]
  constructor
  case active => exact h.active
  case small => exact h.small
  case nodup => exact h.nodup
  case content => exact (List.append_assoc ..).symm.trans (congrArg (· ++ [c]) h.content)
  case once => exact List.Nodup.append h.once (List.nodup_singleton c) (by simpa using hfresh)
  case drained => exact fun _ => hdropping
  case pushing => exact fun _ _ => hdropping
  case alive => grind [put_calls, h.alive, put]
  case lock => grind [put_calls, put, Locked]
  case queued => grind [put_calls, h.queued, put]
  case quiet => grind [put_calls, Locked]
  case recorded =>
    intro x hx g hg
    dsimp only at hx hg
    by_cases hxc : x = c
    · subst hxc
      rw [update_self, h.alive] at hg
      grind [put_calls]
    · rw [update_of_ne hxc] at hg
      have := h.recorded x (by simpa [hxc] using hx) g hg
      grind [put_calls]
  case released =>
    intro x hx g hg
    have hxc : x ≠ c := fun heq => hfresh (heq ▸ h.content ▸ List.mem_append_left _ hx)
    dsimp only at hg
    rw [update_of_ne hxc] at hg
    have := h.released x hx g hg
    grind [put_calls]

theorem Invariant.step {a : PauseAction} (h : s.Invariant) (hfits : s.Fits a)
    (hstep : s.step a = some s') : s'.Invariant := by
  cases a with
  | acquire c =>
    obtain ⟨hc, hs'⟩ := Option.ite_none_right_eq_some.1 hstep
    cases hs'
    exact h.acquire hc hfits
  | tryEnqueue c =>
    obtain ⟨hc, hs'⟩ := Option.ite_none_right_eq_some.1 hstep
    cases hs'
    apply h.move <;> grind [put_calls, h.lock, Locked, Dropping]
  | advance c =>
    simp only [DeletionPause.step] at hstep
    cases hc : s.calls c <;> simp only [hc, reduceCtorEq] at hstep
    case held =>
      obtain rfl := Option.some.inj hstep
      exact h.release hc
    case taking =>
      obtain rfl := Option.some.inj hstep
      exact h.take hc
    case pushing =>
      obtain rfl := Option.some.inj hstep
      exact h.push hc
    case waiting | seen =>
      obtain ⟨hfree, hs'⟩ := Option.ite_none_right_eq_some.1 hstep
      cases hs'
      have := h.unlocked hfree
      apply h.move <;> grind [put_calls, Locked, Dropping]
    case checking | rechecking =>
      have hholder : ∀ d, Locked (s.calls d) → d = c := fun d hd => h.holder (by simp [hc, Locked]) hd
      have hlock := h.lock
      split at hstep <;> cases hstep <;> apply h.move <;> grind [put_calls, Locked, Dropping]

/-- In every interleaving that never has `2 ^ 32` guards alive, the items taken and the items in the
queue are those pushed, each once, an item is taken only when the guards alive at its push are
dropped, and no item stays behind when the drops of all guards have returned. -/
theorem deletions_deferred {actions : List PauseAction}
    (hrun : Transition.Run DeletionPause.step Fits initial actions s) :
    s.taken ++ s.queue = s.enqueued ∧ s.enqueued.Nodup ∧
      (∀ x, x ∈ s.enqueued ↔ s.calls x = .queued) ∧
      (∀ x ∈ s.taken, ∀ g ∈ s.aliveAt x, s.calls g ≠ .held) ∧
      ((∀ c, s.calls c ≠ .held ∧ ¬Dropping (s.calls c)) → s.queue = []) := by
  have h : s.Invariant := hrun.invariant (fun _ _ _ => Invariant.step) initial_invariant
  refine ⟨h.content, h.once, h.queued, h.released, fun hall => ?_⟩
  by_contra hne
  rcases h.drained hne with hpos | ⟨c, hc⟩
  · rw [h.active] at hpos
    obtain ⟨g, hg⟩ := List.exists_mem_of_length_pos hpos
    exact (hall g).1 ((h.alive g).1 hg)
  · exact (hall c).2 hc

/-- Guards 0 and 1, items 2 and 3: the first guard is dropped between the second check and the push of
item 2, the last one while item 3 holds the lock. -/
def deferredItems : List PauseAction :=
  [.acquire 0, .tryEnqueue 2, .acquire 1, .advance 2, .tryEnqueue 3, .advance 2, .advance 0,
    .advance 2, .advance 3, .advance 3, .advance 1, .advance 3, .advance 1, .advance 1, .advance 1]

theorem deletions_deferred_items :
    ∃ s, Transition.Run DeletionPause.step Fits initial deferredItems s ∧
      s.enqueued = [2, 3] ∧ s.aliveAt 2 = [1] ∧ s.queue = [] ∧ s.taken ++ s.queue = [2, 3] := by
  obtain ⟨s, hrun, henqueued, halive, hqueue⟩ :
      ∃ s, Transition.Run DeletionPause.step Fits initial deferredItems s ∧
        s.enqueued = [2, 3] ∧ s.aliveAt 2 = [1] ∧ s.queue = [] :=
    ⟨_, .cons rfl (by decide : (1 : ℕ) < 2 ^ 32) <| .cons rfl trivial <|
      .cons rfl (by decide : (2 : ℕ) < 2 ^ 32) <| .cons rfl trivial <| .cons rfl trivial <|
      .cons rfl trivial <| .cons rfl trivial <| .cons rfl trivial <| .cons rfl trivial <|
      .cons rfl trivial <| .cons rfl trivial <| .cons rfl trivial <| .cons rfl trivial <|
      .cons rfl trivial <| .cons rfl trivial <| .nil _, rfl, rfl, rfl⟩
  exact ⟨s, hrun, henqueued, halive, hqueue, (deletions_deferred hrun).1.trans henqueued⟩

section Wrap

def acquired (n : ℕ) : DeletionPause :=
  ⟨n % 2 ^ 32, none, [], fun c => if c < n then .held else .idle, (List.range n).reverse, [],
    fun _ => [], []⟩

theorem step_acquired (n : ℕ) : (acquired n).step (.acquire n) = some (acquired (n + 1)) := by
  have hcalls : update (acquired n).calls n .held = (acquired (n + 1)).calls := by
    funext c
    simp only [update_apply, acquired]
    grind
  have hidle : (acquired n).calls n = .idle := if_neg (Nat.lt_irrefl n)
  rw [DeletionPause.step, if_pos hidle, put, hcalls]
  simp [acquired, List.range_succ, Nat.add_mod]

theorem run_acquired (n : ℕ) {actions : List PauseAction} :
    Transition.Run DeletionPause.step (fun _ _ => True) (acquired n) actions s →
      Transition.Run DeletionPause.step (fun _ _ => True) initial
        ((List.range n).map .acquire ++ actions) s := by
  induction n generalizing actions with
  | zero => exact id
  | succ n ih =>
    intro hrun
    rw [List.range_succ, List.map_append, List.append_assoc]
    exact ih (.cons (step_acquired n) trivial hrun)

theorem run_drop (hactive : s.active = 1) (hlock : s.lock = none) {x g : ℕ} (hxg : x ≠ g)
    (hx : s.calls x = .idle) (hg : s.calls g = .held) : ∃ s',
    Transition.Run DeletionPause.step (fun _ _ => True) s [.tryEnqueue x, .advance x, .advance x,
      .advance x, .advance g, .advance g, .advance g, .advance g] s' ∧
    x ∈ s'.taken ∧ s'.aliveAt x = s.alive ∧ ∀ d, d ≠ x → d ≠ g → s'.calls d = s.calls d := by
  refine ⟨⟨0, none, [], update (update s.calls x .queued) g .dropped,
    s.alive.erase g, s.enqueued ++ [x], update s.aliveAt x s.alive,
    s.taken ++ (s.queue ++ [x])⟩, Transition.run_of_exec ?_, by simp, by simp, ?_⟩
  · have hlast : (1 + (2 ^ 32 - 1)) % 2 ^ 32 = 0 := by omega
    simp [-Nat.reducePow, -Nat.reduceSub, -Nat.reduceAdd, -Nat.reduceMod, Transition.exec,
      DeletionPause.step, put, hactive, hlock, hx, hg, hxg.symm, hlast]
  · intro d hdx hdg
    simp [hdx, hdg]

/-- With `2 ^ 32 + 1` guards alive the counter reads one: the drop of one guard executes an item
although the other guards are alive. -/
theorem counter_wraps : ∃ actions s,
    Transition.Run DeletionPause.step (fun _ _ => True) initial actions s ∧
      ∃ x ∈ s.taken, ∃ g ∈ s.aliveAt x, s.calls g = .held := by
  obtain ⟨n, hn⟩ : ∃ n, n = 2 ^ 32 + 1 := ⟨_, rfl⟩
  have hactive : (acquired n).active = 1 := by
    simp only [acquired]
    omega
  obtain ⟨s, hrun, htaken, halive, hcalls⟩ := run_drop (x := n) (g := 0) hactive rfl (by omega)
    (if_neg (Nat.lt_irrefl n)) (if_pos (by omega))
  refine ⟨_, s, run_acquired n hrun, n, htaken, 1, ?_, ?_⟩
  · rw [halive]
    exact List.mem_reverse.2 (List.mem_range.2 (by omega))
  · rw [hcalls 1 (by omega) (by decide)]
    exact if_pos (by omega)

end Wrap

end DeletionPause

end LsmTree
