import ExplicitSelf.Path.Basic

/-!
# Lexical normal form of a path

`normalize` resolves current and parent directories by the text alone, without a look at the file
system: a parent directory cancels the name before it, stays at the root, and is kept at the front
of a relative path. `absolute?` makes a path absolute first; only the empty path cannot be.
-/
namespace ExplicitSelf.Path

/-- One more component after `done`, which has the last component first. -/
def normalizeStep (done : List Component) : Component → List Component
  | .current => done
  | .parent =>
    match done with
    | .name _ :: rest => rest
    | .root :: _ => done
    | _ => .parent :: done
  | c => c :: done

def normalizeComponents (cs : List Component) : List Component :=
  (cs.foldl normalizeStep []).reverse

/-- The lexical normal form. mirrors `normalize_path` -/
def normalize (p : Path) : Path :=
  ofComponents (normalizeComponents p.components)

/-- The path from the root, for the working directory `cwd`. -/
def absolute? (cwd p : Path) : Option Path :=
  if p.octets.isEmpty then none
  else if p.isAbsolute then some (ofComponents p.components)
  else some (ofComponents (cwd.components ++ p.components.filter (· ≠ .current)))

end ExplicitSelf.Path
