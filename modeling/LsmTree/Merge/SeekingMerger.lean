import LsmTree.Entry
import LsmTree.Merge.LoserTree

/-! The merging iterator that is consumed from both ends. Sources share one window between their two
ends and do not fail. -/
namespace LsmTree

variable {K V : Type*}

structure MergerEntry (K V : Type*) where
  source : ℕ
  value : InternalValue K V
  deriving DecidableEq, Repr

inductive Direction where
  | forward
  | backward
  deriving DecidableEq, Repr

def Direction.opposite : Direction → Direction
  | .forward => .backward
  | .backward => .forward

/-- The next item of a source at the given end, and the window that is left. -/
def Direction.pull {α : Type*} : Direction → List α → Option (α × List α)
  | .forward, [] => none
  | .forward, x :: xs => some (x, xs)
  | .backward, xs => xs.getLast?.map fun x => (x, xs.dropLast)

section Order

variable [LinearOrder K]

/-- `compare_with`: user key ascending, sequence number descending. -/
def InternalValue.compareWith (a b : InternalValue K V) : Ordering :=
  (compare a.userKey b.userKey).then (compare b.seqno a.seqno)

def minCmp (a b : MergerEntry K V) : Ordering :=
  (a.value.compareWith b.value).then (compare a.source b.source)

def maxCmp (a b : MergerEntry K V) : Ordering :=
  (b.value.compareWith a.value).then (compare b.source a.source)

def Direction.cmp : Direction → MergerEntry K V → MergerEntry K V → Ordering
  | .forward => minCmp
  | .backward => maxCmp

end Order

inductive ParkedCache where
  | stale
  | empty
  | best (slot : ℕ)
  deriving DecidableEq, Repr

/-- What the merger keeps for one direction. The tournament is there once it is primed. -/
structure MergeSide (K V : Type*) where
  tree : Option (LoserTree (MergerEntry K V))
  vacated : List ℕ
  parkedBest : ParkedCache

structure SeekingMerger (K V : Type*) where
  sources : List (List (InternalValue K V))
  forward : MergeSide K V
  backward : MergeSide K V

namespace SeekingMerger

def new (sources : List (List (InternalValue K V))) : SeekingMerger K V :=
  ⟨sources, ⟨none, [], .stale⟩, ⟨none, [], .stale⟩⟩

def side (m : SeekingMerger K V) : Direction → MergeSide K V
  | .forward => m.forward
  | .backward => m.backward

def setSide (m : SeekingMerger K V) (d : Direction) (s : MergeSide K V) : SeekingMerger K V :=
  match d with
  | .forward => { m with forward := s }
  | .backward => { m with backward := s }

variable [LinearOrder K]

/-- The vacated slot whose parked leaf comes first. -/
def scanParked (cmp : MergerEntry K V → MergerEntry K V → Ordering)
    (other : LoserTree (MergerEntry K V)) (vacated : List ℕ) : Option (ℕ × MergerEntry K V) :=
  vacated.foldl (fun best slot =>
    match other.peekSlot slot with
    | none => best
    | some parked =>
      match best with
      | none => some (slot, parked)
      | some (_, current) => if cmp parked current = .lt then some (slot, parked) else best) none

/-- The candidate slot from the cache or from a new scan, and the cache after it. -/
def bestParked (cmp : MergerEntry K V → MergerEntry K V → Ordering)
    (other : LoserTree (MergerEntry K V)) (vacated : List ℕ) (cache : ParkedCache) :
    Option ℕ × ParkedCache :=
  let scan : Option ℕ × ParkedCache :=
    match scanParked cmp other vacated with
    | none => (none, .empty)
    | some (slot, _) => (some slot, .best slot)
  match cache with
  | .empty => (none, .empty)
  | .stale => scan
  | .best slot => if (other.peekSlot slot).isSome then (some slot, .best slot) else scan

/-- The slot whose leaf is parked in the other tournament and comes before what this one
holds itself. -/
def pickParked (d : Direction) (active : LoserTree (MergerEntry K V))
    (other : Option (LoserTree (MergerEntry K V))) (vacated : List ℕ) (cache : ParkedCache) :
    Option ℕ × ParkedCache :=
  match other with
  | none => (none, cache)
  | some other =>
    if vacated.isEmpty || other.active == 0 then (none, cache)
    else
      let (bestSlot, cache) := bestParked d.cmp other vacated cache
      let picked := bestSlot.bind fun slot => (other.peekSlot slot).bind fun parked =>
        match active.winnerSlot.bind active.peekSlot with
        | some w => if d.cmp parked w = .lt then some slot else none
        | none => some slot
      (picked, cache)

/-- Takes the leaf of a slot out of a side, which stands vacated there from now on. -/
def MergeSide.take (d : Direction) (s : MergeSide K V) (slot : ℕ) :
    Option (MergerEntry K V) × MergeSide K V :=
  match s.tree with
  | none => (none, s)
  | some t =>
    match t.takeSlot d.cmp slot with
    | (none, _) => (none, s)
    | (some e, t') => (some e, { s with tree := some t', vacated := s.vacated ++ [slot] })

/-- The head of slot `i`: pulled from the source, or migrated from the opposite tournament. -/
def pullSlot (d : Direction) (i : ℕ) (m : SeekingMerger K V) :
    Option (MergerEntry K V) × SeekingMerger K V :=
  match d.pull (m.sources[i]?.getD []) with
  | some (value, rest) => (some ⟨i, value⟩, { m with sources := m.sources.set i rest })
  | none =>
    let (migrated, s) := MergeSide.take d.opposite (m.side d.opposite) i
    (migrated, m.setSide d.opposite s)

def pullSlots (d : Direction) : List ℕ → SeekingMerger K V →
    List (Option (MergerEntry K V)) × SeekingMerger K V
  | [], m => ([], m)
  | i :: slots, m =>
    let (head, m) := pullSlot d i m
    let (heads, m) := pullSlots d slots m
    (head :: heads, m)

/-- `initialize_forward` and `initialize_backward`. -/
def initializeTree (d : Direction) (m : SeekingMerger K V) : SeekingMerger K V :=
  let n := m.sources.length
  let (initial, m) := pullSlots d (List.range n) m
  let tree := LoserTree.build d.cmp initial
  let m := m.setSide d
    ⟨some tree, (List.range n).filter fun i => (tree.peekSlot i).isNone, .stale⟩
  m.setSide d.opposite { m.side d.opposite with parkedBest := .stale }

/-- The step is about to change this direction's tournament, so the opposite cache is stale from
here on. -/
def scan (d : Direction) (m : SeekingMerger K V) (tree : LoserTree (MergerEntry K V)) :
    Option ℕ × SeekingMerger K V :=
  let m := m.setSide d.opposite { m.side d.opposite with parkedBest := .stale }
  let (picked, cache) :=
    pickParked d tree (m.side d.opposite).tree (m.side d).vacated (m.side d).parkedBest
  (picked, m.setSide d { m.side d with parkedBest := cache })

/-- The outer `none` stands for reading a leaf that is not there. -/
def emitWinner (d : Direction) (m : SeekingMerger K V) (tree : LoserTree (MergerEntry K V)) :
    Option (Option (InternalValue K V) × SeekingMerger K V) :=
  match tree.winnerSlot with
  | none => some (none, m)
  | some source =>
    match d.pull (m.sources[source]?.getD []) with
    | some (value, rest) =>
      (tree.replaceMin d.cmp ⟨source, value⟩).map fun (old, tree) =>
        (some old.value,
          ({ m with sources := m.sources.set source rest } : SeekingMerger K V).setSide d
            { m.side d with tree := some tree })
    | none =>
      (tree.popMin d.cmp).map fun (old, tree) =>
        match old with
        | none => (none, m)
        | some old => (some old.value,
            m.setSide d ⟨some tree, (m.side d).vacated ++ [source], .stale⟩)

def advancePrimed (d : Direction) (m : SeekingMerger K V) (tree : LoserTree (MergerEntry K V)) :
    Option (Option (InternalValue K V) × SeekingMerger K V) :=
  let (picked, m) := scan d m tree
  match picked.map fun slot => MergeSide.take d.opposite (m.side d.opposite) slot with
  | some (some entry, s) =>
    some (some entry.value,
      (m.setSide d.opposite s).setSide d { m.side d with parkedBest := .stale })
  | _ => emitWinner d m tree

def primed (d : Direction) (m : SeekingMerger K V) : SeekingMerger K V :=
  if (m.side d).tree.isSome then m else initializeTree d m

def advance (d : Direction) (m : SeekingMerger K V) :
    Option (Option (InternalValue K V) × SeekingMerger K V) :=
  match ((m.primed d).side d).tree with
  | none => some (none, m.primed d)
  | some tree => advancePrimed d (m.primed d) tree

def next (m : SeekingMerger K V) : Option (Option (InternalValue K V) × SeekingMerger K V) :=
  m.advance .forward

def nextBack (m : SeekingMerger K V) : Option (Option (InternalValue K V) × SeekingMerger K V) :=
  m.advance .backward

/-- Taking the slot's leaf takes another leaf than the winner of the tournament. -/
def MergeSide.spoiledBy (s : MergeSide K V) (slot : ℕ) : Bool :=
  s.tree.any fun t => (t.leaves slot).isSome && t.winnerSlot != some slot

def pullsSpoil (d : Direction) : List ℕ → SeekingMerger K V → Bool
  | [], _ => false
  | i :: slots, m =>
    ((d.pull (m.sources[i]?.getD [])).isNone && MergeSide.spoiledBy (m.side d.opposite) i) ||
      pullsSpoil d slots (pullSlot d i m).2

def claimSpoils (d : Direction) (m : SeekingMerger K V) : Bool :=
  (m.side d).tree.any fun t => (scan d m t).1.any fun slot =>
    MergeSide.spoiledBy (m.side d.opposite) slot

/-- A call in direction `d` takes another leaf than the winner out of the opposite tournament. -/
def spoilsOpposite (d : Direction) (m : SeekingMerger K V) : Bool :=
  ((m.side d).tree.isNone && pullsSpoil d (List.range m.sources.length) m) ||
    claimSpoils d (m.primed d)

end SeekingMerger

/-- A merger with the items it has yielded, and a note of the tournaments that have lost another
leaf than their winner. -/
structure MergerRun (K V : Type*) where
  merger : SeekingMerger K V
  front : List (InternalValue K V)
  back : List (InternalValue K V)
  ended : Bool
  spoiled : Direction → Bool

namespace MergerRun

variable [LinearOrder K]

def start (sources : List (List (InternalValue K V))) : MergerRun K V :=
  ⟨SeekingMerger.new sources, [], [], false, fun _ => false⟩

def call (d : Direction) (m : SeekingMerger K V) :
    Option (Option (InternalValue K V) × SeekingMerger K V) :=
  match d with
  | .forward => m.next
  | .backward => m.nextBack

def yield (r : MergerRun K V) (d : Direction) : Option (InternalValue K V) → MergerRun K V
  | none => { r with ended := true }
  | some v =>
    match d with
    | .forward => { r with front := r.front ++ [v] }
    | .backward => { r with back := r.back ++ [v] }

def step (r : MergerRun K V) (d : Direction) : Option (MergerRun K V) :=
  (call d r.merger).map fun (result, m) =>
    { r.yield d result with
      merger := m
      spoiled := Function.update r.spoiled d.opposite
        (r.spoiled d.opposite || r.merger.spoilsOpposite d) }

end MergerRun

end LsmTree
