import ExplicitSelf.Error
import ExplicitSelf.FileTree.Basic
import ExplicitSelf.Plan.Basic

/-!
# Build plans in files

`Plan.load` reads the plan in a file. Its errors name the file.
-/
namespace ExplicitSelf.Plan

inductive LoadError where
  | io (path : Path) (cause : IoError)
  | fault (path : Path) (f : Fault)
  deriving DecidableEq, Repr

def LoadError.message : LoadError → String
  | .io path cause => s!"cannot read build plan {path.text}: {cause.message}"
  | .fault path f => f.message (some path)

def LoadError.path : LoadError → Path
  | .io path _ => path
  | .fault path _ => path

def LoadError.toError (e : LoadError) : Error := .setup e.message (some e.path)

/-- mirrors `BuildPlan.load` -/
def load (t : FileTree) (delimiter : Option String) (path : Path) : Except LoadError Plan :=
  match t.readText path with
  | .error e => .error (.io path e)
  | .ok text =>
    match parse delimiter text with
    | .ok plan => .ok plan
    | .error f => .error (.fault path f)

end ExplicitSelf.Plan
