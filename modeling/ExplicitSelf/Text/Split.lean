/-!
# Cutting and joining texts

`splitWhere` cuts a list at every separator and keeps the empty pieces, so a list with `n`
separators has `n + 1` pieces; `splitOn` does so for one letter, and `joinWith` puts the pieces
together again. Letters are characters or octets. `afterPrefix?`, `afterFirst?`, `occursIn` and
`endsWith` look for one text in another.
-/
namespace ExplicitSelf.Text

variable {α : Type}

/-- The pieces between separators, empty ones included. -/
def splitWhere (separates : α → Bool) : List α → List (List α)
  | [] => [[]]
  | c :: cs =>
    if separates c then [] :: splitWhere separates cs
    else
      match splitWhere separates cs with
      | [] => [[c]]
      | p :: ps => (c :: p) :: ps

/-- The pieces between occurrences of one letter, empty ones included. -/
def splitOn [DecidableEq α] (separator : α) (cs : List α) : List (List α) :=
  splitWhere (· = separator) cs

/-- The pieces with a separator between each two. -/
def joinWith (separator : α) : List (List α) → List α
  | [] => []
  | [p] => p
  | p :: q :: ps => p ++ separator :: joinWith separator (q :: ps)

/-- What stands after a prefix, if the text starts with it. -/
def afterPrefix? : (front : List Char) → List Char → Option (List Char)
  | [], cs => some cs
  | _ :: _, [] => none
  | p :: ps, c :: cs => if p = c then afterPrefix? ps cs else none

/-- What stands after the first occurrence of a text. -/
def afterFirst? (needle : List Char) : List Char → Option (List Char)
  | [] => afterPrefix? needle []
  | c :: cs => (afterPrefix? needle (c :: cs)).or (afterFirst? needle cs)

def occursIn (needle cs : List Char) : Bool :=
  (afterFirst? needle cs).isSome

def endsWith (cs ending : List Char) : Bool :=
  (afterPrefix? ending.reverse cs.reverse).isSome

end ExplicitSelf.Text
