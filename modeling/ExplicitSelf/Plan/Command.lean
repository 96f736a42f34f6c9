import ExplicitSelf.Keyed
import ExplicitSelf.Yaml.Access

/-!
# Build plans: the commands of a plan

A build plan is a YAML document whose `commands` map names each command of a build to what runs it:
a tool, the files that it reads, and its arguments, as a list or as one line.
-/
namespace ExplicitSelf.Plan

inductive RawArguments where
  | list (arguments : List String)
  | line (text : String)
  deriving DecidableEq, Repr

structure Command where
  tool : Option String := none
  inputs : List String := []
  arguments : Option RawArguments := none
  deriving DecidableEq, Repr

open Yaml (Document)

def Command.ofNode? (d : Document) (n : Yaml.Node) : Option Command := do
  let entries ← d.map? n
  let tool ← d.optional? d.text? (← Document.field? entries "tool")
  let inputs ← match ← Document.field? entries "inputs" with
    | none => some []
    | some n => (← d.list? n).mapM d.text?
  let arguments ← d.optional? d.textOrList? (← Document.field? entries "args")
  return { tool, inputs, arguments := arguments.map fun
    | .inl line => .line line
    | .inr list => .list list }

/-- Reads the commands of a plan, if it has any; of two with one key the later counts. -/
def commands? (text : String) : Option (Option (List (String × Command))) := do
  let d ← Document.read? text.toList
  match d.root with
  | none => return none
  | some root =>
    let field ← Document.field? (← d.map? root) "commands"
    d.optional? (fun n => do
      let entries ← (← d.map? n).mapM fun (k, n) => (Command.ofNode? d n).map fun c => (k, c)
      return entries.foldl (fun cs (k, c) => Keyed.put (· = ·) k c cs) []) field

end ExplicitSelf.Plan
