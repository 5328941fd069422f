import LsmTree.Compaction.Leveled
import LsmTree.Flush
import LsmTree.Theory.Transition

/-! A tree under flushes and leveled compactions. A merge hides its inputs when it starts and
installs its outputs into whatever version is current when it ends. -/
namespace LsmTree

variable {K V : Type*} [LinearOrder K] [RawKey K] [Inhabited V]

/-- A merge compaction between its start and its install. -/
structure RunningMerge (K V : Type*) where
  tableIds : List ℕ
  destLevel : ℕ
  inputs : List (Table K V)
  outputs : List (Table K V)

structure TreeState (K V : Type*) where
  version : Version (Table K V)
  running : List (RunningMerge K V)

namespace TreeState

def hiddenSet (s : TreeState K V) : List ℕ := s.running.flatMap (·.tableIds)

def knownTables (s : TreeState K V) : List (Table K V) :=
  s.version.tables ++ s.running.flatMap (·.outputs)

/-- The id generator hands out each id once. -/
def Fresh (s : TreeState K V) (tables : List (Table K V)) : Prop :=
  ((s.knownTables ++ tables).map (·.id)).Nodup

instance (s : TreeState K V) (tables : List (Table K V)) : Decidable (s.Fresh tables) :=
  inferInstanceAs (Decidable (List.Nodup _))

def initial (levelCount : ℕ) : TreeState K V := ⟨⟨List.replicate levelCount []⟩, []⟩

end TreeState

inductive TreeAction (K V : Type*) [LinearOrder K] where
  | flush (options : FlushOptions K V) (sealed : List (Memtable K V))
  | compact (scoring : Scoring (Table K V)) (options : CompactionPayload K V)
  | install (i : ℕ)
  | abort (i : ℕ)

namespace TreeState

variable (st : Strategy)

def move (s : TreeState K V) (input : CompactionInput) : TreeState K V :=
  if input.tableIds.any (· ∈ s.hiddenSet) then s
  else { s with version := s.version.withMoved input.tableIds input.destLevel }

/-- The running merge that a payload starts, unless the worker declines it. -/
def startedMerge (v : Version (Table K V)) (p : CompactionPayload K V) :
    Option (RunningMerge K V) :=
  (p.jobs v).map fun jobs =>
    ⟨p.tableIds, p.destLevel, v.tables.filter (·.id ∈ p.tableIds), jobs.flatMap (·.outputs)⟩

def startMerge (s : TreeState K V) (p : CompactionPayload K V) : Option (TreeState K V) :=
  if p.tableIds.any (· ∈ s.hiddenSet) then some s
  else
    match startedMerge s.version p with
    | none => some s
    | some r =>
      if s.Fresh r.outputs then some { s with running := s.running ++ [r] } else none

def step (s : TreeState K V) : TreeAction K V → Option (TreeState K V)
  | .flush o sealed =>
    if s.Fresh (o.tables sealed) then
      some { s with version := s.version.withNewL0Run (o.tables sealed) }
    else none
  | .compact sc o =>
    match st.choose sc s.version s.hiddenSet with
    | .doNothing => some s
    | .move input => some (s.move input)
    | .merge input =>
      s.startMerge { o with tableIds := input.tableIds, destLevel := input.destLevel }
  | .install i =>
    s.running[i]?.map fun r =>
      ⟨s.version.withMerge r.tableIds r.outputs r.destLevel, s.running.eraseIdx i⟩
  | .abort i =>
    s.running[i]?.map fun _ => { s with running := s.running.eraseIdx i }

end TreeState

end LsmTree
