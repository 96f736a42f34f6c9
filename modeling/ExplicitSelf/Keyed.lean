/-!
# Values by key

Lists of keys with their values, in the order in which the keys came. What makes two keys the same
is given by a test.
-/
namespace ExplicitSelf.Keyed

variable {α β : Type}

/-- Replaces the value of a key, or adds it at the end. -/
def put (same : α → α → Bool) (k : α) (v : β) : List (α × β) → List (α × β)
  | [] => [(k, v)]
  | (k', v') :: rest => if same k' k then (k', v) :: rest else (k', v') :: put same k v rest

def get? (same : α → α → Bool) (k : α) : List (α × β) → Option β
  | [] => none
  | (k', v) :: rest => if same k' k then some v else get? same k rest

end ExplicitSelf.Keyed
