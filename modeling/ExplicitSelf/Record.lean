/-!
# Log records

What a run tells besides its report: records with a level and a message, in the order in which they
arise. A run shows those at or above the level that was asked for.
-/
namespace ExplicitSelf

/-- How much a record matters. -/
inductive Level where
  | trace
  | debug
  | info
  | warn
  | error
  deriving DecidableEq, Repr

/-- The rank of a level; more severe levels rank higher. -/
def Level.rank : Level → Nat
  | .trace => 0
  | .debug => 1
  | .info => 2
  | .warn => 3
  | .error => 4

def Level.name : Level → String
  | .trace => "TRACE"
  | .debug => "DEBUG"
  | .info => "INFO"
  | .warn => "WARN"
  | .error => "ERROR"

structure Record where
  level : Level
  message : String
  deriving DecidableEq, Repr

/-- Whether a record is shown when `least` is asked for. -/
def Record.isShown (least : Level) (r : Record) : Bool :=
  least.rank ≤ r.level.rank

end ExplicitSelf
