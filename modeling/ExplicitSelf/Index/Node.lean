import ExplicitSelf.Json.Value

/-!
# The index of a source file

A semantic service answers an index query with a tree of entities: declarations and references, each
with a kind, a name and a position if it has them, and the entities inside it. `Node.decode?` reads
the answer.
-/
namespace ExplicitSelf.Index

/-- An entity of an index. Lines and columns count from one, columns in octets.
mirrors `IndexNode` -/
structure Node where
  kind : Option String := none
  name : Option String := none
  line : Option UInt32 := none
  column : Option UInt32 := none
  entities : List Node := []
  deriving Inhabited

def Node.fieldNames : List String :=
  ["key.kind", "key.name", "key.line", "key.column", "key.entities"]

/-- Reads an entity whose values may be nested `depth` levels deep. -/
def Node.ofJson? : (depth : Nat) → Json.Value → Option Node
  | 0, _ => none
  | depth + 1, v =>
    match v.fields? fieldNames with
    | some [kind, name, line, column, entities] => do
      let kind ← Json.Value.fieldOr none Json.Value.optionalText? kind
      let name ← Json.Value.fieldOr none Json.Value.optionalText? name
      let line ← Json.Value.fieldOr none Json.Value.optionalWord? line
      let column ← Json.Value.fieldOr none Json.Value.optionalWord? column
      let entities ←
        match entities, depth with
        | none, _ => some []
        | some (.array vs), depth + 1 => vs.mapM (ofJson? depth)
        | _, _ => none
      return { kind, name, line, column, entities }
    | _ => none

def Node.decode? (answer : Text.Octets) : Option Node :=
  (Json.read? answer).bind (Node.ofJson? Json.maxDepth)

end ExplicitSelf.Index
