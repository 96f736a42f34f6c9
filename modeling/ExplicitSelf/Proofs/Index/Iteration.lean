import ExplicitSelf.Proofs.Index.Traversal
import ExplicitSelf.Proofs.Source.Positions
import Mathlib.Data.List.Nodup

/-!
# Candidates one call at a time

The candidates of an index are found on demand. A call takes turns at the stack until an entity is a
candidate, and leaves the stack for the next call: a turn either puts the entities inside the one on
top above it, or takes the top away and considers it (`Call`). The walk is all calls up to the first
that finds nothing (`Calls`).

What a stack stands for is the list of entities that are `pending` on it. A turn that expands an
entity does not change this list, and a turn that considers one takes its head. Each turn lowers the
weight of the stack by one, so there are as many turns as the weight of the first stack.

Results:
* `Call.spec`: what one call considers and finds, and what it leaves, on any stack.
* `calls_iff`: all calls together, on any stack.
* `exists_addresses`: the traversal has one place for each address in the tree.
* `candidates_on_demand`: the calls for an index.
-/
namespace ExplicitSelf.Index

open Source (LineTable)
open Text (size)

/-! ## Calls -/

/-- A call with `k` turns that considers entities on a stack, finds a candidate or nothing, and
leaves a stack. -/
inductive Call (table : LineTable) :
    (k : Nat) → (stack : List Frame) → List Node → Option Candidate → (rest : List Frame) →
      Prop where
  /-- The stack is empty. -/
  | exhausted : Call table 0 [] [] none []
  /-- The entities inside the top come above it. -/
  | expand {n : Node} {k : Nat} {stack rest : List Frame} {ns : List Node}
    {found : Option Candidate}
    (h : Call table k (Frame.fresh n.entities ++ ⟨n, true⟩ :: stack) ns found rest) :
    Call table (k + 1) (⟨n, false⟩ :: stack) ns found rest
  /-- The top is considered and is no candidate. -/
  | pass {n : Node} {k : Nat} {stack rest : List Frame} {ns : List Node} {found : Option Candidate}
    (hn : n.candidate? table = none) (h : Call table k stack ns found rest) :
    Call table (k + 1) (⟨n, true⟩ :: stack) (n :: ns) found rest
  /-- The top is considered and is a candidate. -/
  | find {n : Node} {c : Candidate} {stack : List Frame} (hn : n.candidate? table = some c) :
    Call table 1 (⟨n, true⟩ :: stack) [n] (some c) stack

/-- Calls up to the first that finds nothing, with the turns and the entities of all of them. -/
inductive Calls (table : LineTable) :
    (k : Nat) → (stack : List Frame) → List Node → List Candidate → Prop where
  | last {k : Nat} {stack rest : List Frame} {ns : List Node}
    (h : Call table k stack ns none rest) :
    Calls table k stack ns []
  | more {k l : Nat} {stack rest : List Frame} {ns ms : List Node} {c : Candidate}
    {cs : List Candidate}
    (h : Call table k stack ns (some c) rest) (hs : Calls table l rest ms cs) :
    Calls table (k + l) stack (ns ++ ms) (c :: cs)

/-- The entities that a stack stands for, in the order in which they are considered. -/
def pending (stack : List Frame) : List Node :=
  stack.flatMap fun f => if f.expanded then [f.node] else f.node.postorder

@[simp] theorem pending_nil : pending [] = [] := rfl

@[simp] theorem pending_expanded (n : Node) (stack : List Frame) :
    pending (⟨n, true⟩ :: stack) = n :: pending stack := rfl

theorem pending_fresh_cons (n : Node) (stack : List Frame) :
    pending (⟨n, false⟩ :: stack) = n.postorder ++ pending stack := rfl

theorem pending_fresh_append (ns : List Node) (stack : List Frame) :
    pending (Frame.fresh ns ++ stack) = Node.postorders ns ++ pending stack := by
  induction ns with
  | nil => rfl
  | cons n ns ih =>
    have htop : Frame.fresh (n :: ns) ++ stack = ⟨n, false⟩ :: (Frame.fresh ns ++ stack) := rfl
    rw [htop, pending_fresh_cons, ih, Node.postorders, List.append_assoc]

/-- Expanding an entity does not change what is pending. -/
theorem pending_expand (n : Node) (stack : List Frame) :
    pending (Frame.fresh n.entities ++ ⟨n, true⟩ :: stack) = pending (⟨n, false⟩ :: stack) := by
  obtain ⟨kind, name, line, column, entities⟩ := n
  rw [pending_fresh_append, pending_expanded, pending_fresh_cons, Node.postorder, List.append_assoc]
  rfl

theorem weights_expanded (n : Node) (stack : List Frame) :
    Frame.weights (⟨n, true⟩ :: stack) = Frame.weights stack + 1 := by
  simp [Frame.weights, Frame.weight, Nat.add_comm]

/-- Expanding an entity is one turn. -/
theorem weights_expand (n : Node) (stack : List Frame) :
    Frame.weights (⟨n, false⟩ :: stack) =
      Frame.weights (Frame.fresh n.entities ++ ⟨n, true⟩ :: stack) + 1 := by
  obtain ⟨kind, name, line, column, entities⟩ := n
  rw [Frame.weights_append, Frame.weights_fresh, weights_expanded, Frame.weights]
  simp only [Frame.weight, Node.size, Bool.false_eq_true, if_false]
  omega

section
variable {table : LineTable} {k : Nat} {stack rest : List Frame} {ns : List Node}
  {found : Option Candidate} {cs : List Candidate}

/-- A call considers the first entities that are pending, up to the first candidate among them. -/
theorem Call.spec (h : Call table k stack ns found rest) :
    Frame.weights stack = k + Frame.weights rest ∧ pending stack = ns ++ pending rest ∧
      ns.filterMap (·.candidate? table) = found.toList ∧ (found = none → rest = []) := by
  induction h with
  | exhausted => exact ⟨rfl, rfl, rfl, fun _ => rfl⟩
  | @expand n k stack rest ns found _ ih =>
    obtain ⟨hweight, hpending, hfound, hrest⟩ := ih
    refine ⟨?_, ?_, hfound, hrest⟩
    · rw [weights_expand, hweight]
      omega
    · rw [← pending_expand, hpending]
  | @pass n k stack rest ns found hn _ ih =>
    obtain ⟨hweight, hpending, hfound, hrest⟩ := ih
    refine ⟨?_, ?_, ?_, hrest⟩
    · rw [weights_expanded, hweight]
      omega
    · rw [pending_expanded, hpending, List.cons_append]
    · rw [List.filterMap_cons_none hn, hfound]
  | @find n c stack hn =>
    refine ⟨?_, rfl, ?_, fun hnone => by cases hnone⟩
    · rw [weights_expanded, Nat.add_comm]
    · rw [List.filterMap_cons_some hn]
      rfl

/-- All calls consider all that is pending and find the candidates among it. -/
theorem Calls.spec (h : Calls table k stack ns cs) :
    k = Frame.weights stack ∧ ns = pending stack ∧
      cs = (pending stack).filterMap (·.candidate? table) := by
  induction h with
  | last h =>
    obtain ⟨hweight, hpending, hfound, hrest⟩ := h.spec
    obtain rfl := hrest rfl
    rw [pending_nil, List.append_nil] at hpending
    rw [hpending, hfound]
    exact ⟨hweight.symm, rfl, rfl⟩
  | more h _ ih =>
    obtain ⟨hweight, hpending, hfound, -⟩ := h.spec
    obtain ⟨rfl, rfl, rfl⟩ := ih
    rw [hpending, hweight, List.filterMap_append, hfound]
    exact ⟨rfl, rfl, rfl⟩

/-- A turn in front of a call is a turn in front of all calls that start with it. -/
theorem Calls.turn {stack' : List Frame} (seen : List Node)
    (hturn : ∀ {k : Nat} {ns : List Node} {found : Option Candidate} {rest : List Frame},
      Call table k stack ns found rest → Call table (k + 1) stack' (seen ++ ns) found rest)
    (h : Calls table k stack ns cs) : Calls table (k + 1) stack' (seen ++ ns) cs := by
  cases h with
  | last h => exact .last (hturn h)
  | more h hs =>
    rw [Nat.add_right_comm, ← List.append_assoc]
    exact .more (hturn h) hs

/-- The calls come to an end, and find what the walk finds. -/
theorem calls_walk (table : LineTable) (stack : List Frame) :
    Calls table (Frame.weights stack) stack (pending stack) (walk table stack) := by
  fun_induction walk table stack with
  | case1 => exact .last .exhausted
  | case2 n stack ih =>
    rw [weights_expand, ← pending_expand]
    exact ih.turn [] .expand
  | case3 n stack c hn ih =>
    rw [weights_expanded, Nat.add_comm, pending_expanded]
    exact .more (.find hn) ih
  | case4 n stack hn ih =>
    rw [weights_expanded, pending_expanded]
    exact ih.turn [n] (.pass hn)

/-- On any stack there is one way to go on: as many turns as the weight of the stack, which consider
all that is pending and find what the walk finds. -/
theorem calls_iff :
    Calls table k stack ns cs ↔
      k = Frame.weights stack ∧ ns = pending stack ∧ cs = walk table stack := by
  constructor
  · intro h
    obtain ⟨-, -, hwalk⟩ := (calls_walk table stack).spec
    rw [hwalk]
    exact h.spec
  · rintro ⟨rfl, rfl, rfl⟩
    exact calls_walk table stack

end

/-! ## Addresses -/

/-- The entity at an address: the position among the entities inside the root, then inside that one,
and so on. -/
def Node.at? : (address : List Nat) → Node → Option Node
  | [], n => some n
  | i :: p, n => n.entities[i]?.bind (Node.at? p)

mutual

/-- The addresses of the entities of a tree, those inside an entity before it. -/
def Node.addresses : Node → List (List Nat)
  | ⟨_, _, _, _, entities⟩ => Node.addressesFrom 0 entities ++ [[]]

/-- The addresses of the entities of several trees, the first of which is at position `i`. -/
def Node.addressesFrom : (i : Nat) → List Node → List (List Nat)
  | _, [] => []
  | i, n :: ns => n.addresses.map (i :: ·) ++ Node.addressesFrom (i + 1) ns

end

theorem mem_addressesFrom_iff {i : Nat} {ns : List Node} {p : List Nat} :
    p ∈ Node.addressesFrom i ns ↔
      ∃ j n q, p = (i + j) :: q ∧ ns[j]? = some n ∧ q ∈ n.addresses := by
  induction ns generalizing i with
  | nil => simp [Node.addressesFrom]
  | cons m ns ih =>
    rw [Node.addressesFrom, List.mem_append, List.mem_map, ih]
    constructor
    · rintro (⟨q, hq, rfl⟩ | ⟨j, n, q, rfl, hn, hq⟩)
      · exact ⟨0, m, q, rfl, rfl, hq⟩
      · exact ⟨j + 1, n, q, by rw [Nat.add_right_comm]; rfl, hn, hq⟩
    · rintro ⟨_ | j, n, q, rfl, hn, hq⟩
      · cases hn
        exact .inl ⟨q, hq, rfl⟩
      · exact .inr ⟨j, n, q, by rw [Nat.add_right_comm]; rfl, hn, hq⟩

theorem mem_addresses_iff {n : Node} {p : List Nat} :
    p ∈ n.addresses ↔ ∃ m, Node.at? p n = some m := by
  induction p generalizing n with
  | nil =>
    obtain ⟨kind, name, line, column, entities⟩ := n
    simp [Node.addresses, Node.at?]
  | cons i p ih =>
    obtain ⟨kind, name, line, column, entities⟩ := n
    simp only [Node.addresses, List.mem_append, mem_addressesFrom_iff, List.mem_singleton,
      List.cons_ne_nil, or_false, Node.at?, Option.bind_eq_some_iff]
    constructor
    · rintro ⟨j, e, q, hp, he, hq⟩
      rw [Nat.zero_add, List.cons.injEq] at hp
      obtain ⟨rfl, rfl⟩ := hp
      obtain ⟨m, hm⟩ := ih.1 hq
      exact ⟨m, e, he, hm⟩
    · rintro ⟨m, e, he, hm⟩
      exact ⟨i, e, p, by rw [Nat.zero_add], he, ih.2 ⟨m, hm⟩⟩

mutual

theorem nodup_addresses : ∀ n : Node, n.addresses.Nodup
  | ⟨kind, name, line, column, entities⟩ => by
    rw [Node.addresses, List.nodup_append]
    refine ⟨nodup_addressesFrom 0 entities, List.nodup_singleton [], ?_⟩
    rintro p hp q hq rfl
    obtain ⟨j, n, r, rfl, -, -⟩ := mem_addressesFrom_iff.1 hp
    exact absurd (List.mem_singleton.1 hq) (List.cons_ne_nil _ _)

theorem nodup_addressesFrom (i : Nat) : ∀ ns : List Node, (Node.addressesFrom i ns).Nodup
  | [] => by
    rw [Node.addressesFrom]
    exact List.nodup_nil
  | n :: ns => by
    rw [Node.addressesFrom, List.nodup_append]
    refine ⟨(nodup_addresses n).map List.cons_injective, nodup_addressesFrom (i + 1) ns, ?_⟩
    -- the first step of an address tells the trees apart
    rintro p hp q hq rfl
    obtain ⟨r, -, rfl⟩ := List.mem_map.1 hp
    obtain ⟨j, m, r', hr, -, -⟩ := mem_addressesFrom_iff.1 hq
    rw [List.cons.injEq] at hr
    omega

end

mutual

theorem addresses_map_at? : ∀ n : Node, n.addresses.map (Node.at? · n) = n.postorder.map some
  | ⟨kind, name, line, column, entities⟩ => by
    rw [Node.addresses, Node.postorder, List.map_append, List.map_append,
      addressesFrom_map_at? 0 entities _ fun j => by rw [Nat.zero_add]]
    rfl

theorem addressesFrom_map_at? (i : Nat) : ∀ (ns : List Node) (m : Node),
    (∀ j, m.entities[i + j]? = ns[j]?) →
      (Node.addressesFrom i ns).map (Node.at? · m) = (Node.postorders ns).map some
  | [], _, _ => by
    rw [Node.addressesFrom, Node.postorders]
    rfl
  | n :: ns, m, h => by
    have hn : m.entities[i]? = some n := h 0
    have hns : ∀ j, m.entities[i + 1 + j]? = ns[j]? := fun j => by
      rw [Nat.add_right_comm]
      exact h (j + 1)
    have hinside : (n.addresses.map (i :: ·)).map (Node.at? · m) =
        n.addresses.map (Node.at? · n) := by
      rw [List.map_map]
      refine List.map_congr_left fun p _ => ?_
      rw [Function.comp_apply, Node.at?, hn, Option.bind_some]
    rw [Node.addressesFrom, Node.postorders, List.map_append, List.map_append, hinside,
      addresses_map_at? n, addressesFrom_map_at? (i + 1) ns m hns]

end

/-- The traversal has exactly one place for each address of the tree. -/
theorem exists_addresses (root : Node) :
    ∃ ps : List (List Nat), ps.Nodup ∧ (∀ p, p ∈ ps ↔ ∃ n, Node.at? p root = some n) ∧
      ps.map (Node.at? · root) = root.postorder.map some :=
  ⟨root.addresses, nodup_addresses root, fun _ => mem_addresses_iff, addresses_map_at? root⟩

/-! ## The calls for an index -/

/-- An entity is kept as a candidate: it has one of the two kinds, and its line and column stand for
an offset. -/
structure Node.Kept (table : LineTable) (n : Node) (c : Candidate) : Prop where
  kind : n.kind = some methodKind ∧ c.reason = .method ∨ n.kind = some propertyKind ∧
    c.reason = .property
  offset : ∃ line column, n.line = some line ∧ n.column = some column ∧
    table.offsetAt? line column = some c.offset

theorem ofKind?_eq_some_iff {kind : String} {reason : Reason} :
    Reason.ofKind? kind = some reason ↔
      kind = methodKind ∧ reason = .method ∨ kind = propertyKind ∧ reason = .property := by
  have hne : propertyKind ≠ methodKind := by decide
  unfold Reason.ofKind?
  split
  · rename_i hmethod
    subst hmethod
    simp [hne.symm, eq_comm]
  · rename_i hmethod
    split
    · rename_i hproperty
      subst hproperty
      simp [hmethod, eq_comm]
    · rename_i hproperty
      simp [hmethod, hproperty]

theorem candidate?_eq_some_iff {table : LineTable} {n : Node} {c : Candidate} :
    n.candidate? table = some c ↔ n.Kept table c := by
  unfold Node.candidate?
  simp only [Option.bind_eq_bind, Option.bind_eq_some_iff, ofKind?_eq_some_iff]
  constructor
  · rintro ⟨kind, hkind, reason, hreason, line, hline, column, hcolumn, offset, hoffset, hc⟩
    cases hc
    refine ⟨?_, line, column, hline, hcolumn, hoffset⟩
    rcases hreason with ⟨rfl, rfl⟩ | ⟨rfl, rfl⟩
    · exact .inl ⟨hkind, rfl⟩
    · exact .inr ⟨hkind, rfl⟩
  · rintro ⟨⟨hkind, hreason⟩ | ⟨hkind, hreason⟩, line, column, hline, hcolumn, hoffset⟩
    · exact ⟨_, hkind, _, .inl ⟨rfl, hreason⟩, line, hline, column, hcolumn, _, hoffset, rfl⟩
    · exact ⟨_, hkind, _, .inr ⟨rfl, hreason⟩, line, hline, column, hcolumn, _, hoffset, rfl⟩

theorem offset_le_size {text : List Char} {root : Node} {c : Candidate}
    (h : c ∈ candidates (.ofText text) root) : c.offset ≤ size text := by
  rw [candidates_eq_postorder] at h
  obtain ⟨n, -, hn⟩ := List.mem_filterMap.1 h
  obtain ⟨-, line, column, -, -, hoffset⟩ := candidate?_eq_some_iff.1 hn
  exact LineTable.le_size_of_offsetAt? text hoffset

/-- The calls for an index come to an end after two turns for each entity. They consider the
entities of the post-order traversal, each address of the tree once, and find those that are kept,
all of them at offsets of the text. -/
theorem candidates_on_demand (text : List Char) (root : Node) :
    (∀ k ns cs, Calls (.ofText text) k (Frame.fresh [root]) ns cs ↔
        k = 2 * root.size ∧ ns = root.postorder ∧ cs = candidates (.ofText text) root) ∧
      candidates (.ofText text) root = root.postorder.filterMap (·.candidate? (.ofText text)) ∧
      (∀ (n : Node) (c : Candidate), n.candidate? (.ofText text) = some c ↔
        n.Kept (.ofText text) c) ∧
      (∃ ps : List (List Nat), ps.Nodup ∧ (∀ p, p ∈ ps ↔ ∃ n, Node.at? p root = some n) ∧
        ps.map (Node.at? · root) = root.postorder.map some) ∧
      ∀ c ∈ candidates (.ofText text) root, c.offset ≤ size text := by
  refine ⟨fun k ns cs => ?_, candidates_eq_postorder _ root, fun _ _ => candidate?_eq_some_iff,
    exists_addresses root, fun _ => offset_le_size⟩
  have hpending : pending (Frame.fresh [root]) = root.postorder := by
    have h := pending_fresh_cons root []
    rwa [pending_nil, List.append_nil] at h
  have hweights : Frame.weights (Frame.fresh [root]) = 2 * root.size := by
    rw [Frame.weights_fresh, Node.sizes, Node.sizes, Nat.add_zero]
  rw [calls_iff, hpending, hweights, candidates]

end ExplicitSelf.Index
