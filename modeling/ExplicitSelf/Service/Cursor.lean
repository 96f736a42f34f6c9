import ExplicitSelf.Json.Value

/-!
# What stands at an offset

A semantic service answers a cursor query with the kind, the name and the identifier of the symbol
at an offset, as far as it knows them.
-/
namespace ExplicitSelf.Service

/-- The symbol at an offset. mirrors `CursorInfo` -/
structure Cursor where
  kind : Option String := none
  name : Option String := none
  usr : Option String := none
  deriving DecidableEq, Repr, Inhabited

def Cursor.fieldNames : List String :=
  ["key.kind", "key.name", "key.usr"]

def Cursor.ofJson? (v : Json.Value) : Option Cursor :=
  match v.fields? fieldNames with
  | some [kind, name, usr] => do
    let kind ← Json.Value.fieldOr none Json.Value.optionalText? kind
    let name ← Json.Value.fieldOr none Json.Value.optionalText? name
    let usr ← Json.Value.fieldOr none Json.Value.optionalText? usr
    return { kind, name, usr }
  | _ => none

def Cursor.decode? (answer : Text.Octets) : Option Cursor :=
  (Json.read? answer).bind Cursor.ofJson?

end ExplicitSelf.Service
