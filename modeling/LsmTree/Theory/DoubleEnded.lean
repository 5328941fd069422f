import Mathlib

/-! Double-ended iterators. -/
namespace DoubleEnded

open List

/-- `bound` is at least the number of items left, for the loops that run over an iterator. -/
class Iter (I : Type*) (α : outParam (Type*)) where
  next : I → Option α × I
  nextBack : I → Option α × I
  bound : I → ℕ

instance {α : Type*} : Iter (List α) α where
  next l := (l.head?, l.tail)
  nextBack l := (l.getLast?, l.dropLast)
  bound l := l.length

inductive End where
  | front
  | back
  deriving DecidableEq, Repr

section Drive

variable {I α : Type*} [Iter I α]

def pull : End → I → Option α × I
  | .front, i => Iter.next i
  | .back, i => Iter.nextBack i

def drive : List End → I → List (Option α)
  | [], _ => []
  | e :: calls, i => (pull e i).1 :: drive calls (pull e i).2

/-- `R i l` says that exactly the items of `l` are left in `i`. -/
structure Yields (R : I → List α → Prop) : Prop where
  next : ∀ {i l}, R i l → (Iter.next i).1 = l.head? ∧ R (Iter.next i).2 l.tail
  nextBack : ∀ {i l}, R i l → (Iter.nextBack i).1 = l.getLast? ∧ R (Iter.nextBack i).2 l.dropLast
  bound : ∀ {i l}, R i l → l.length ≤ Iter.bound i

def YieldsFront (R : I → List α → Prop) : Prop :=
  ∀ i l, R i l → (Iter.next i).1 = l.head? ∧ R (Iter.next i).2 l.tail

def YieldsBack (R : I → List α → Prop) : Prop :=
  ∀ i l, R i l → (Iter.nextBack i).1 = l.getLast? ∧ R (Iter.nextBack i).2 l.dropLast

theorem Yields.front {R : I → List α → Prop} (h : Yields R) : YieldsFront R :=
  fun _ _ hi => h.next hi

theorem Yields.back {R : I → List α → Prop} (h : Yields R) : YieldsBack R :=
  fun _ _ hi => h.nextBack hi

theorem yields_list : Yields fun i l : List α => i = l where
  next h := by subst h; exact ⟨rfl, rfl⟩
  nextBack h := by subst h; exact ⟨rfl, rfl⟩
  bound h := by subst h; exact Nat.le_refl _

variable {R : I → List α → Prop} {i : I} {l : List α}

theorem YieldsFront.next_cons (h : YieldsFront R) {a : α} (hi : R i (a :: l)) :
    ∃ i', Iter.next i = (some a, i') ∧ R i' l :=
  ⟨_, Prod.ext (h _ _ hi).1 rfl, (h _ _ hi).2⟩

theorem YieldsFront.next_nil (h : YieldsFront R) (hi : R i []) :
    ∃ i', Iter.next i = (none, i') ∧ R i' [] :=
  ⟨_, Prod.ext (h _ _ hi).1 rfl, (h _ _ hi).2⟩

theorem YieldsBack.nextBack_concat (h : YieldsBack R) {a : α} (hi : R i (l ++ [a])) :
    ∃ i', Iter.nextBack i = (some a, i') ∧ R i' l := by
  obtain ⟨h1, h2⟩ := h _ _ hi
  rw [getLast?_concat] at h1
  rw [dropLast_concat] at h2
  exact ⟨_, Prod.ext h1 rfl, h2⟩

theorem YieldsBack.nextBack_nil (h : YieldsBack R) (hi : R i []) :
    ∃ i', Iter.nextBack i = (none, i') ∧ R i' [] :=
  ⟨_, Prod.ext (h _ _ hi).1 rfl, (h _ _ hi).2⟩

theorem Yields.pull_eq (h : Yields R) (hi : R i l) (e : End) :
    (pull e i).1 = (pull e l).1 ∧ R (pull e i).2 (pull e l).2 := by
  cases e with
  | front => exact h.next hi
  | back => exact h.nextBack hi

theorem Yields.drive_eq (h : Yields R) (hi : R i l) (calls : List End) :
    drive calls i = drive calls l := by
  induction calls generalizing i l with
  | nil => rfl
  | cons e calls ih =>
    obtain ⟨h1, h2⟩ := h.pull_eq hi e
    exact congrArg₂ List.cons h1 (ih h2)

theorem pull_nil (e : End) : pull e ([] : List α) = (none, []) := by cases e <;> rfl

theorem exists_pull (e : End) (hne : l ≠ []) :
    ∃ a l', pull e l = (some a, l') ∧ a ∈ l ∧ l'.Sublist l ∧ l'.length < l.length ∧
      ∀ keep : α → Bool, (keep a = true → pull e (l.filter keep) = (some a, l'.filter keep)) ∧
        (keep a = false → l.filter keep = l'.filter keep) := by
  cases e with
  | front =>
    cases l with
    | nil => exact absurd rfl hne
    | cons a l =>
      refine ⟨a, l, rfl, mem_cons_self, sublist_cons_self a l, Nat.lt_succ_self _,
        fun keep => ⟨fun hk => ?_, fun hk => ?_⟩⟩
      · rw [filter_cons_of_pos hk]
        rfl
      · rw [filter_cons_of_neg (by simp [hk])]
  | back =>
    rcases eq_nil_or_concat' l with rfl | ⟨l, a, rfl⟩
    · exact absurd rfl hne
    · refine ⟨a, l, by simp [pull, Iter.nextBack], by simp, sublist_append_left l [a],
        by simp, fun keep => ⟨fun hk => ?_, fun hk => ?_⟩⟩
      · simp [pull, Iter.nextBack, hk]
      · simp [hk]

theorem drive_front (l : List α) :
    drive (List.replicate l.length .front) l = l.map some := by
  induction l with
  | nil => rfl
  | cons a l ih => exact congrArg (some a :: ·) ih

theorem drive_back (l : List α) :
    drive (List.replicate l.length .back) l = l.reverse.map some := by
  induction l using List.reverseRecOn with
  | nil => rfl
  | append_singleton l a ih =>
    simp only [length_append, length_singleton, replicate_succ, drive, pull,
      Iter.nextBack, getLast?_concat, dropLast_concat, ih, reverse_append,
      reverse_singleton, singleton_append, map_cons]

end Drive

section Peekable

inductive MaybePeeked (α : Type*) where
  | unpeeked
  | peeked (item : Option α)
  deriving DecidableEq, Repr

/-- `peeked_value_ref`, `into_peeked_value` -/
@[simp] def MaybePeeked.value {α : Type*} : MaybePeeked α → Option α
  | .unpeeked => none
  | .peeked item => item

/-- An iterator with a slot for a peeked item at each end. When it has run dry, each end falls
back to what the other end has peeked. -/
structure Peekable (I α : Type*) where
  front : MaybePeeked α
  iter : I
  back : MaybePeeked α

namespace Peekable

variable {I α : Type*} [Iter I α] (p : Peekable I α)

/-- `double_ended_peekable` -/
def new (iter : I) : Peekable I α := ⟨.unpeeked, iter, .unpeeked⟩

def next : Option α × Peekable I α :=
  match p.front with
  | .peeked (some a) => (some a, { p with front := .unpeeked })
  | .peeked none => (p.back.value, { p with front := .unpeeked, back := .unpeeked })
  | .unpeeked =>
    match Iter.next p.iter with
    | (some a, iter) => (some a, { p with iter })
    | (none, iter) => (p.back.value, ⟨.unpeeked, iter, .unpeeked⟩)

def nextBack : Option α × Peekable I α :=
  match p.back with
  | .peeked (some a) => (some a, { p with back := .unpeeked })
  | .peeked none => (p.front.value, { p with front := .unpeeked, back := .unpeeked })
  | .unpeeked =>
    match Iter.nextBack p.iter with
    | (some a, iter) => (some a, { p with iter })
    | (none, iter) => (p.front.value, ⟨.unpeeked, iter, .unpeeked⟩)

instance : Iter (Peekable I α) α where
  next := next
  nextBack := nextBack
  bound p := Iter.bound p.iter + 2

def peekBack : Option α × Peekable I α :=
  match p.back with
  | .peeked item => (item.or p.front.value, p)
  | .unpeeked =>
    let r := Iter.nextBack p.iter
    (r.1.or p.front.value, { p with back := .peeked r.1, iter := r.2 })

/-- An item that is refused goes back to the front slot. -/
def nextIf (f : α → Bool) : Option α × Peekable I α :=
  match p.next with
  | (some a, p') => if f a then (some a, p') else (none, { p' with front := .peeked (some a) })
  | (none, p') => (none, { p' with front := .peeked none })

def Holds (R : I → List α → Prop) (p : Peekable I α) (l : List α) : Prop :=
  ∃ l', R p.iter l' ∧ l = p.front.value.toList ++ l' ++ p.back.value.toList ∧
    (p.front = .peeked none → l' = []) ∧ (p.back = .peeked none → l' = [])

variable {p} {R : I → List α → Prop} {l : List α}

omit [Iter I α] in
theorem holds_new {iter : I} (h : R iter l) : Holds R (new iter) l :=
  ⟨l, h, by simp [new, MaybePeeked.value], nofun, nofun⟩

theorem next_spec (hR : YieldsFront R) (h : Holds R p l) :
    p.next.1 = l.head? ∧ Holds R p.next.2 l.tail ∧ p.next.2.front = .unpeeked := by
  obtain ⟨l', hl', rfl, hf, hb⟩ := h
  unfold next
  rcases hfront : p.front with _ | ⟨_ | a⟩
  · rcases l' with _ | ⟨a, l'⟩
    · obtain ⟨i', hnext, hi'⟩ := hR.next_nil hl'
      simp only [hnext]
      refine ⟨by cases p.back.value <;> simp, ⟨[], hi', ?_, nofun, nofun⟩, trivial⟩
      cases p.back.value <;> simp
    · obtain ⟨i', hnext, hi'⟩ := hR.next_cons hl'
      simp only [hnext]
      refine ⟨by simp, ⟨l', hi', by simp, nofun, ?_⟩, trivial⟩
      exact fun h => absurd (hb h) (cons_ne_nil a l')
  · obtain rfl := hf hfront
    refine ⟨by cases p.back.value <;> simp, ⟨[], hl', ?_, nofun, nofun⟩, rfl⟩
    cases p.back.value <;> simp
  · exact ⟨by simp, ⟨l', hl', by simp, nofun, hb⟩, rfl⟩

theorem nextBack_spec (hR : YieldsBack R) (h : Holds R p l) :
    p.nextBack.1 = l.getLast? ∧ Holds R p.nextBack.2 l.dropLast := by
  obtain ⟨l', hl', rfl, hf, hb⟩ := h
  unfold nextBack
  rcases hback : p.back with _ | ⟨_ | a⟩
  · rcases eq_nil_or_concat' l' with rfl | ⟨l', a, rfl⟩
    · obtain ⟨i', hnext, hi'⟩ := hR.nextBack_nil hl'
      simp only [hnext]
      refine ⟨by cases p.front.value <;> simp, ⟨[], hi', ?_, nofun, nofun⟩⟩
      cases p.front.value <;> simp
    · obtain ⟨i', hnext, hi'⟩ := hR.nextBack_concat hl'
      simp only [hnext]
      refine ⟨by simp [← append_assoc], ⟨l', hi', ?_, ?_, ?_⟩⟩
      · simp [← append_assoc]
      · exact fun h => absurd (hf h) (by simp)
      · simp
  · obtain rfl := hb hback
    refine ⟨by cases p.front.value <;> simp, ⟨[], hl', ?_, nofun, nofun⟩⟩
    cases p.front.value <;> simp
  · exact ⟨by simp, ⟨l', hl', by simp, hf, nofun⟩⟩

theorem yields (hR : Yields R) : Yields (Holds R) where
  next h := ⟨(next_spec hR.front h).1, (next_spec hR.front h).2.1⟩
  nextBack h := nextBack_spec hR.back h
  bound {p l} h := by
    obtain ⟨l', hl', rfl, -, -⟩ := h
    have hlen := hR.bound hl'
    have hfront : p.front.value.toList.length ≤ 1 := by cases p.front.value <;> simp
    have hback : p.back.value.toList.length ≤ 1 := by cases p.back.value <;> simp
    simp only [length_append, Iter.bound]
    omega

theorem peekBack_spec (hR : YieldsBack R) (h : Holds R p l) :
    p.peekBack.1 = l.getLast? ∧ Holds R p.peekBack.2 l := by
  obtain ⟨l', hl', rfl, hf, hb⟩ := h
  unfold peekBack
  rcases hback : p.back with _ | ⟨_ | a⟩
  · rcases eq_nil_or_concat' l' with rfl | ⟨l', a, rfl⟩
    · obtain ⟨i', hnext, hi'⟩ := hR.nextBack_nil hl'
      simp only [hnext]
      refine ⟨by cases p.front.value <;> simp, ⟨[], hi', ?_, fun _ => rfl, fun _ => rfl⟩⟩
      simp
    · obtain ⟨i', hnext, hi'⟩ := hR.nextBack_concat hl'
      simp only [hnext]
      refine ⟨by simp [← append_assoc], ⟨l', hi', ?_, ?_, nofun⟩⟩
      · simp
      · exact fun h => absurd (hf h) (by simp)
  · obtain rfl := hb hback
    refine ⟨by cases p.front.value <;> simp, ⟨[], hl', by simp [hback], hf, fun _ => rfl⟩⟩
  · exact ⟨by simp, ⟨l', hl', by simp [hback], hf, by simp [hback]⟩⟩

variable (f : α → Bool) {a : α}

omit [Iter I α] in
theorem Holds.putBack {p' : Peekable I α} (h : Holds R p' l) (hfront : p'.front = .unpeeked) :
    Holds R { p' with front := .peeked (some a) } (a :: l) := by
  obtain ⟨l', hl', rfl, -, hb⟩ := h
  exact ⟨l', hl', by simp [hfront], nofun, hb⟩

theorem nextIf_pos (hR : YieldsFront R) (h : Holds R p (a :: l)) (hf : f a = true) :
    ∃ p', p.nextIf f = (some a, p') ∧ Holds R p' l := by
  obtain ⟨h1, h2, -⟩ := next_spec hR h
  refine ⟨p.next.2, ?_, h2⟩
  rw [nextIf, show p.next = (some a, p.next.2) from Prod.ext h1 rfl]
  simp [hf]

/-- Nothing is taken at the end, or where the next item is refused. -/
theorem nextIf_none (hR : YieldsFront R) (h : Holds R p l) (hf : ∀ a ∈ l.head?, f a = false) :
    ∃ p', p.nextIf f = (none, p') ∧ Holds R p' l := by
  obtain ⟨h1, h2, h3⟩ := next_spec hR h
  cases l with
  | nil =>
    obtain ⟨l', hl', heq, -, hb⟩ := h2
    obtain ⟨hnil, -⟩ := append_eq_nil_iff.1 heq.symm
    obtain ⟨-, rfl⟩ := append_eq_nil_iff.1 hnil
    refine ⟨{ p.next.2 with front := .peeked none }, ?_, ⟨[], hl', ?_, fun _ => rfl, hb⟩⟩
    · rw [nextIf, show p.next = (none, p.next.2) from Prod.ext h1 rfl]
    · simpa [h3] using heq
  | cons a l =>
    refine ⟨_, ?_, h2.putBack h3⟩
    rw [nextIf, show p.next = (some a, p.next.2) from Prod.ext h1 rfl]
    simp [hf a rfl]

end Peekable

end Peekable

end DoubleEnded
