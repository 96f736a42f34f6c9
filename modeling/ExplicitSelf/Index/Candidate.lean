import ExplicitSelf.Index.Node
import ExplicitSelf.Source.LineTable

/-!
# Candidates: the references that may lack an explicit `self.`

A candidate is a reference to an instance method or property, at the octet offset that its line and
column stand for. `candidates` collects them from an index with a stack of entities still to visit,
so that the depth of the index does not matter. An entity comes after those inside it.
-/
namespace ExplicitSelf.Index

open Source (LineTable)

/-- mirrors `CandidateReason` -/
inductive Reason where
  | method
  | property
  deriving DecidableEq, Repr

def methodKind : String := "source.lang.swift.ref.function.method.instance"

def propertyKind : String := "source.lang.swift.ref.var.instance"

/-- mirrors `CandidateReason.from_kind` -/
def Reason.ofKind? (kind : String) : Option Reason :=
  if kind = methodKind then some .method
  else if kind = propertyKind then some .property
  else none

/-- A reference to an instance member, by its offset in octets. mirrors `CandidateOffset` -/
structure Candidate where
  offset : Nat
  reason : Reason
  deriving DecidableEq, Repr

/-- The candidate that an entity is by itself. mirrors `CandidateOffsets.candidate` -/
def Node.candidate? (table : LineTable) (n : Node) : Option Candidate := do
  let reason ← Reason.ofKind? (← n.kind)
  let offset ← table.offsetAt? (← n.line) (← n.column)
  return ⟨offset, reason⟩

mutual

def Node.size : Node → Nat
  | ⟨_, _, _, _, entities⟩ => 1 + Node.sizes entities

def Node.sizes : List Node → Nat
  | [] => 0
  | n :: ns => n.size + Node.sizes ns

end

/-- An entity on the stack: `expanded` once those inside it were put there too. -/
structure Frame where
  node : Node
  expanded : Bool

/-- How many steps a frame takes, and those that it puts on the stack. -/
def Frame.weight (f : Frame) : Nat :=
  if f.expanded then 1 else 2 * f.node.size

/-- The frames of entities that are still to be expanded. -/
def Frame.fresh (ns : List Node) : List Frame :=
  ns.map fun n => ⟨n, false⟩

/-- How many steps the frames of a stack take. -/
def Frame.weights : List Frame → Nat
  | [] => 0
  | f :: fs => f.weight + Frame.weights fs

theorem Frame.weights_append (fs gs : List Frame) :
    Frame.weights (fs ++ gs) = Frame.weights fs + Frame.weights gs := by
  induction fs with
  | nil => simp [Frame.weights]
  | cons f fs ih =>
    simp only [List.cons_append, Frame.weights, ih]
    omega

theorem Frame.weights_fresh (ns : List Node) :
    Frame.weights (Frame.fresh ns) = 2 * Node.sizes ns := by
  induction ns with
  | nil => rfl
  | cons n ns ih =>
    simp only [Frame.fresh, List.map_cons, Frame.weights, Node.sizes] at ih ⊢
    rw [ih]
    simp [Frame.weight]
    omega

/-- The candidates of the entities on a stack, its top first. mirrors `CandidateOffsets.next` -/
def walk (table : LineTable) : (stack : List Frame) → List Candidate
  | [] => []
  | ⟨n, false⟩ :: stack => walk table (Frame.fresh n.entities ++ ⟨n, true⟩ :: stack)
  | ⟨n, true⟩ :: stack =>
    match n.candidate? table with
    | some c => c :: walk table stack
    | none => walk table stack
  termination_by stack => Frame.weights stack
  decreasing_by
    · obtain ⟨_, _, _, _, entities⟩ := n
      simp only [Frame.weights_append, Frame.weights, Frame.weights_fresh, Frame.weight, Node.size]
      simp
      omega
    · simp [Frame.weights, Frame.weight]
    · simp [Frame.weights, Frame.weight]

/-- mirrors `candidate_offsets` -/
def candidates (table : LineTable) (root : Node) : List Candidate :=
  walk table (Frame.fresh [root])

/-- A node that only holds others. mirrors `IndexNode.container` -/
def Node.container (entities : List Node) : Node :=
  { entities := entities }

end ExplicitSelf.Index
