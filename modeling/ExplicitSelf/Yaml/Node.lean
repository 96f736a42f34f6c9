import ExplicitSelf.Yaml.Token

/-!
# YAML: the nodes of a document

A document is a tree of scalars, sequences and mappings. A node may carry a tag, and an anchor by
which aliases name it; `Document.find?` gives the node that an alias stands for. Each anchor gets a
number: how many names there were before it. A name that is used again gets a new number, which the
next new name may share, and the later of two nodes with one number is the one that is found.

`Document.read?` reads a stream with at most one document.
-/
namespace ExplicitSelf.Yaml

inductive Node where
  | scalar (anchor : Option Nat) (tag : Option (List Char)) (style : Style) (text : List Char)
  | sequence (anchor : Option Nat) (tag : Option (List Char)) (items : List Node)
  | mapping (anchor : Option Nat) (tag : Option (List Char)) (entries : List (Node × Node))
  | alias (number : Nat)

/-- The scalar that stands where nothing is written. -/
def Node.empty : Node := .scalar none none .plain []

/-- The directives that hold in every document: handles of tags, and what they stand for. -/
def defaultHandles : List (List Char × List Char) :=
  [(['!'], ['!']), (['!', '!'], "tag:yaml.org,2002:".toList)]

/-- A document while it is read: the tokens left, the numbers of anchors by name, and the handles of
tags. -/
structure Reader where
  tokens : List Token
  anchors : List (List Char × Nat) := []
  handles : List (List Char × List Char) := defaultHandles

namespace Reader

def next (r : Reader) : Reader := { r with tokens := r.tokens.drop 1 }

def sees (r : Reader) (ts : List Token) : Bool := r.tokens.head?.any ts.contains

/-- Numbers an anchor, if there is one. -/
def anchor (r : Reader) : Option (List Char) → Option Nat × Reader
  | none => (none, r)
  | some name =>
    let n := r.anchors.length
    let known := r.anchors.any (·.1 = name)
    let anchors :=
      if known then r.anchors.map fun (x, i) => if x = name then (x, n) else (x, i)
      else r.anchors ++ [(name, n)]
    (some n, { r with anchors })

/-- The anchor and the tag in front of a node, in either order. -/
def properties (r : Reader) :
    Option (List Char) × Option (List Char × List Char) × Reader :=
  match r.tokens with
  | .anchor a :: .tag h s :: ts => (some a, some (h, s), { r with tokens := ts })
  | .tag h s :: .anchor a :: ts => (some a, some (h, s), { r with tokens := ts })
  | .anchor a :: ts => (some a, none, { r with tokens := ts })
  | .tag h s :: ts => (none, some (h, s), { r with tokens := ts })
  | _ => (none, none, r)

/-- The full text of a tag, if its handle is known. -/
def tag? (r : Reader) : Option (List Char × List Char) → Option (Option (List Char))
  | none => some none
  | some ([], suffix) => some (some suffix)
  | some (handle, suffix) =>
    (r.handles.find? (·.1 = handle)).map fun (_, expansion) => some (expansion ++ suffix)

end Reader

mutual

/-- Reads a node. Only inside blocks can it be a block collection; `indentless` tells whether it can
be a sequence without indentation of its own. -/
def readNode? (block indentless : Bool) : (fuel : Nat) → Reader → Option (Node × Reader)
  | 0, _ => none
  | fuel + 1, r =>
    match r.tokens with
    | .alias name :: _ =>
      (r.anchors.find? (·.1 = name)).map fun (_, n) => (.alias n, r.next)
    | _ => do
      let (a, t, r) := r.properties
      let tag ← r.tag? t
      let (number, r) := r.anchor a
      match r.tokens with
      | .scalar text style :: _ =>
        return (.scalar number (tag.filter (· ≠ ['!'])) style text, r.next)
      | .flowSequenceStart :: _ =>
        let (items, r) ← readFlowItems? true fuel r.next
        return (.sequence number tag items, r)
      | .flowMappingStart :: _ =>
        let (entries, r) ← readFlowEntries? true fuel r.next
        return (.mapping number tag entries, r)
      | .blockEntry :: _ =>
        if indentless then
          let (items, r) ← readIndentless? fuel r
          return (.sequence number tag items, r)
        else if a.isSome ∨ t.isSome then return (.scalar number tag .plain [], r)
        else none
      | .blockSequenceStart :: _ =>
        if block then
          let (items, r) ← readBlockItems? fuel r.next
          return (.sequence number tag items, r)
        else if a.isSome ∨ t.isSome then return (.scalar number tag .plain [], r)
        else none
      | .blockMappingStart :: _ =>
        if block then
          let (entries, r) ← readBlockEntries? fuel r.next
          return (.mapping number tag entries, r)
        else if a.isSome ∨ t.isSome then return (.scalar number tag .plain [], r)
        else none
      | _ => if a.isSome ∨ t.isSome then return (.scalar number tag .plain [], r) else none

/-- Reads a node, or nothing in front of one of the tokens `stops`. -/
def readOptional? (block indentless : Bool) (stops : List Token) :
    (fuel : Nat) → Reader → Option (Node × Reader)
  | 0, _ => none
  | fuel + 1, r =>
    if r.sees stops then some (.empty, r) else readNode? block indentless fuel r

/-- Reads the entries of a block sequence and its end. -/
def readBlockItems? : (fuel : Nat) → Reader → Option (List Node × Reader)
  | 0, _ => none
  | fuel + 1, r =>
    match r.tokens with
    | .blockEntry :: _ => do
      let (n, r) ← readOptional? true false [.blockEntry, .blockEnd] fuel r.next
      let (ns, r) ← readBlockItems? fuel r
      return (n :: ns, r)
    | .blockEnd :: _ => some ([], r.next)
    | _ => none

/-- Reads the entries of a sequence without indentation of its own. -/
def readIndentless? : (fuel : Nat) → Reader → Option (List Node × Reader)
  | 0, _ => none
  | fuel + 1, r =>
    match r.tokens with
    | .blockEntry :: _ => do
      let (n, r) ← readOptional? true false [.blockEntry, .key, .value, .blockEnd] fuel r.next
      let (ns, r) ← readIndentless? fuel r
      return (n :: ns, r)
    | _ => some ([], r)

/-- Reads the entries of a block mapping and its end. -/
def readBlockEntries? : (fuel : Nat) → Reader → Option (List (Node × Node) × Reader)
  | 0, _ => none
  | fuel + 1, r =>
    match r.tokens with
    | .key :: _ => do
      let (k, r) ← readOptional? true true [.key, .value, .blockEnd] fuel r.next
      let (v, r) ←
        if r.sees [.value] then readOptional? true true [.key, .value, .blockEnd] fuel r.next
        else some (.empty, r)
      let (es, r) ← readBlockEntries? fuel r
      return ((k, v) :: es, r)
    | .blockEnd :: _ => some ([], r.next)
    | _ => none

/-- Reads the items of a flow sequence and its end; all but the first follow a comma. A key makes an
item a mapping of one entry. -/
def readFlowItems? (first : Bool) : (fuel : Nat) → Reader → Option (List Node × Reader)
  | 0, _ => none
  | fuel + 1, r =>
    if r.sees [.flowSequenceEnd] then some ([], r.next)
    else if !first ∧ !r.sees [.flowEntry] then none
    else
      let r := if first then r else r.next
      if r.sees [.flowSequenceEnd] then some ([], r.next)
      else if r.sees [.key] then do
        let r := r.next
        let (k, r) ←
          if r.sees [.value, .flowEntry, .flowSequenceEnd] then some (.empty, r.next)
          else readNode? false false fuel r
        let (v, r) ←
          if r.sees [.value] then
            readOptional? false false [.flowEntry, .flowSequenceEnd] fuel r.next
          else some (.empty, r)
        let (ns, r) ← readFlowItems? false fuel r
        return (.mapping none none [(k, v)] :: ns, r)
      else do
        let (n, r) ← readNode? false false fuel r
        let (ns, r) ← readFlowItems? false fuel r
        return (n :: ns, r)

/-- Reads the entries of a flow mapping and its end; all but the first follow a comma. An item that
is not marked as a key has no value. -/
def readFlowEntries? (first : Bool) : (fuel : Nat) → Reader →
    Option (List (Node × Node) × Reader)
  | 0, _ => none
  | fuel + 1, r =>
    if r.sees [.flowMappingEnd] then some ([], r.next)
    else if !first ∧ !r.sees [.flowEntry] then none
    else
      let r := if first then r else r.next
      if r.sees [.flowMappingEnd] then some ([], r.next)
      else if r.sees [.key] then do
        let (k, r) ←
          readOptional? false false [.value, .flowEntry, .flowMappingEnd] fuel r.next
        let (v, r) ←
          if r.sees [.value] then
            readOptional? false false [.flowEntry, .flowMappingEnd] fuel r.next
          else some (.empty, r)
        let (es, r) ← readFlowEntries? false fuel r
        return ((k, v) :: es, r)
      else do
        let (k, r) ← readNode? false false fuel r
        let (es, r) ← readFlowEntries? false fuel r
        return ((k, .empty) :: es, r)

end

/-! ## Documents -/

/-- Reads directives: at most one version, which has to be 1.1 or 1.2, and no handle twice. -/
def readDirectives? : (version : Bool) → (handles : List (List Char × List Char)) → List Token →
    Option (List (List Char × List Char) × List Token)
  | version, handles, .version major minor :: ts =>
    if version ∨ major ≠ 1 ∨ (minor ≠ 1 ∧ minor ≠ 2) then none
    else readDirectives? true handles ts
  | version, handles, .tagDirective handle expansion :: ts =>
    if handles.any (·.1 = handle) then none
    else readDirectives? version (handles ++ [(handle, expansion)]) ts
  | _, handles, ts => some (handles, ts)

/-- Whether tokens start with a directive or the start of a document. -/
def startsExplicitly : List Token → Bool
  | .version _ _ :: _ => true
  | .tagDirective _ _ :: _ => true
  | .documentStart :: _ => true
  | _ => false

/-- Whether a document that was started has no content. -/
def hasNoContent : List Token → Bool
  | .documentEnd :: _ => true
  | .streamEnd :: _ => true
  | ts => startsExplicitly ts

/-- Reads a document: its root, and the tokens after it. -/
def readDocument? (ts : List Token) : Option (Node × List Token) := do
  let fuel := 3 * ts.length + 3
  if startsExplicitly ts then
    let (handles, ts) ← readDirectives? false [] ts
    match ts with
    | .documentStart :: ts =>
      if hasNoContent ts then return (.empty, ts)
      else
        let r : Reader := { tokens := ts, handles := handles ++ defaultHandles }
        let (n, r) ← readNode? true false fuel r
        return (n, r.tokens)
    | _ => none
  else
    let (n, r) ← readNode? true false fuel { tokens := ts }
    return (n, r.tokens)

/-- A document; an empty stream has none. -/
structure Document where
  root : Option Node

/-- Reads the document of a stream. More than one is an error. -/
def Document.read? (text : List Char) : Option Document := do
  let ts ← Token.scan? text
  if ts = [.streamEnd] then return ⟨none⟩
  let (n, ts) ← readDocument? ts
  if ts.dropWhile (· = .documentEnd) = [.streamEnd] then return ⟨some n⟩ else none

/-! ## Aliases -/

mutual

/-- The nodes with an anchor, each before those inside it. -/
def Node.anchored : Node → List (Nat × Node)
  | n@(.scalar a _ _ _) => a.toList.map fun i => (i, n)
  | n@(.sequence a _ items) => (a.toList.map fun i => (i, n)) ++ anchoredItems items
  | n@(.mapping a _ entries) => (a.toList.map fun i => (i, n)) ++ anchoredEntries entries
  | .alias _ => []

/-- The nodes with an anchor in a list. -/
def anchoredItems : List Node → List (Nat × Node)
  | [] => []
  | n :: ns => n.anchored ++ anchoredItems ns

/-- The nodes with an anchor in the entries of a mapping. -/
def anchoredEntries : List (Node × Node) → List (Nat × Node)
  | [] => []
  | (k, v) :: es => k.anchored ++ v.anchored ++ anchoredEntries es

end

/-- The node that an alias stands for. -/
def Document.find? (d : Document) (number : Nat) : Option Node :=
  (d.root.bind fun n => n.anchored.reverse.find? (·.1 = number)).map (·.2)

/-- The node itself, or the node that it is an alias of. -/
def Document.follow? (d : Document) : Node → Option Node
  | .alias number => d.find? number
  | n => some n

end ExplicitSelf.Yaml
