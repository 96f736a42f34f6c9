import ExplicitSelf.Yaml.Node
import ExplicitSelf.Yaml.Plain

/-!
# YAML: reading values of a known shape

Readers for the shapes that a program asks of a document: records, maps, lists, texts, and texts or
lists where either may stand. Aliases are followed. Where nothing is written, records, maps and
lists are empty. A text can be any scalar, whatever it would mean elsewhere; only `textOrList?`
looks at the meaning, since there a number is not a text.
-/
namespace ExplicitSelf.Yaml

/-- The tags of the types that every document knows. -/
def typeTag (name : String) : List Char :=
  ("tag:yaml.org,2002:" ++ name).toList

namespace Document

def text? (d : Document) (n : Node) : Option String :=
  match d.follow? n with
  | some (.scalar _ _ _ text) => some (.ofList text)
  | _ => none

/-- The entries of a map whose keys are texts. -/
def map? (d : Document) (n : Node) : Option (List (String × Node)) :=
  match d.follow? n with
  | some (.mapping _ _ entries) => entries.mapM fun (k, v) => (d.text? k).map fun k => (k, v)
  | some (.scalar _ _ .plain []) => some []
  | _ => none

def list? (d : Document) (n : Node) : Option (List Node) :=
  match d.follow? n with
  | some (.sequence _ _ items) => some items
  | some (.scalar _ _ .plain []) => some []
  | _ => none

/-- The value of a field among the entries of a record. A field may not be repeated. -/
def field? (entries : List (String × Node)) (name : String) : Option (Option Node) :=
  match entries.filter (·.1 = name) with
  | [] => some none
  | [(_, n)] => some (some n)
  | _ => none

/-- A value that may be missing: nothing if it is null or not written. -/
def optional? {α : Type} (d : Document) (read : Node → Option α) :
    Option Node → Option (Option α)
  | none => some none
  | some n =>
    match d.follow? n with
    | none => none
    | some (.scalar _ (some tag) .plain text) =>
      if tag = typeTag "null" then (if spellsNull text then some none else none)
      else (read n).map some
    | some (.scalar _ none .plain text) =>
      if text.isEmpty ∨ spellsNull text then some none else (read n).map some
    | some n => (read n).map some

/-- The types whose scalars are no texts. -/
def otherTypes : List String := ["bool", "int", "float", "null"]

/-- Whether a scalar is a text, by its tag, its style and its meaning. -/
def isText (tag : Option (List Char)) (style : Style) (text : List Char) : Bool :=
  match tag with
  | none => style ≠ .plain || Meaning.ofPlain text = .text
  | some t => t.head? ≠ some '!' && !otherTypes.any (typeTag · = t)

/-- The text of a scalar that is one. -/
def strictText? (d : Document) (n : Node) : Option String :=
  match d.follow? n with
  | some (.scalar _ tag style text) => if isText tag style text then some (.ofList text) else none
  | _ => none

/-- A text, or a list of texts. Tags of its own are no list. -/
def textOrList? (d : Document) (n : Node) : Option (String ⊕ List String) :=
  match d.follow? n with
  | some (.sequence _ tag items) =>
    if tag.any (·.head? = some '!') then none else (items.mapM d.strictText?).map .inr
  | some n => (d.strictText? n).map .inl
  | none => none

end Document

end ExplicitSelf.Yaml
