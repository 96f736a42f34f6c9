import ExplicitSelf.Text.Utf8

/-!
# Globs: the tokens of a pattern

A glob is a pattern for the text of a path. `?` stands for one octet, `*` for any octets, slashes
included; `[a-z]` and `[!a-z]` for one octet in or out of a class; `{a,b}` for one of several
patterns; a backslash takes the character after it as it is. `**` is special only as a whole
component: `**/` in front stands for any directories or none, `/**` at the end for everything below,
and `/**/` for a slash or anything between two. In any other place it is two stars.

`Glob.parse` reads a pattern or says what is wrong with it (`Fault.message`).
-/
namespace ExplicitSelf

namespace Glob

inductive Token where
  | literal (c : Char)
  /-- One octet. -/
  | any
  /-- Any octets. -/
  | star
  /-- Any directories with the slash after them, or nothing, or a slash. -/
  | directories
  /-- A slash and anything after it. -/
  | beneath
  /-- A slash, or anything from one slash to another. -/
  | between
  /-- One octet of the ranges, or one that is in none of them. -/
  | oneOf (negated : Bool) (ranges : List (Char × Char))
  /-- One of several patterns, or nothing if there are none. -/
  | choice (branches : List (List Token))
  deriving Repr

inductive Fault where
  | unclosedClass
  | invalidRange (first last : Char)
  | unopenedGroup
  | unclosedGroup
  | danglingEscape
  deriving DecidableEq, Repr

def Fault.reason : Fault → String
  | .unclosedClass => "unclosed character class; missing ']'"
  | .invalidRange a b => s!"invalid range; '{a}' > '{b}'"
  | .unopenedGroup =>
    "unopened alternate group; missing '\x7b' (maybe escape '\x7d' with '[\x7d]'?)"
  | .unclosedGroup =>
    "unclosed alternate group; missing '\x7d' (maybe escape '\x7b' with '[\x7b]'?)"
  | .danglingEscape => "dangling '\\'"

def Fault.message (pattern : String) (f : Fault) : String :=
  s!"error parsing glob '{pattern}': {f.reason}"

/-! ## Classes -/

/-- A class while it is read. The ranges have the newest first. -/
structure ClassState where
  ranges : List (Char × Char)
  /-- Nothing was read yet, so a bracket or a dash stands for itself. -/
  first : Bool
  /-- A dash was read, so the next character ends the newest range. -/
  dashed : Bool

/-- Ends the newest range. -/
def closeRange (ranges : List (Char × Char)) (c : Char) : Except Fault (List (Char × Char)) :=
  match ranges with
  | [] => .ok [(c, c)]
  | (a, _) :: rs => if c < a then .error (.invalidRange a c) else .ok ((a, c) :: rs)

/-- The ranges of a class and what stands after its closing bracket. -/
def classRanges (s : ClassState) :
    List Char → Except Fault (List (Char × Char) × List Char)
  | [] => .error .unclosedClass
  | c :: cs =>
    if c = ']' ∧ !s.first then
      let ranges := if s.dashed then ('-', '-') :: s.ranges else s.ranges
      .ok (ranges.reverse, cs)
    else if c = '-' ∧ !s.first ∧ !s.dashed then
      classRanges { s with dashed := true } cs
    else if s.dashed then
      match closeRange s.ranges c with
      | .error e => .error e
      | .ok ranges => classRanges ⟨ranges, false, false⟩ cs
    else classRanges ⟨(c, c) :: s.ranges, false, false⟩ cs

theorem classRanges_rest_length {s : ClassState} {cs : List Char} {v : List (Char × Char)}
    {r : List Char} (h : classRanges s cs = .ok (v, r)) : r.length < cs.length := by
  induction cs generalizing s with
  | nil => simp [classRanges] at h
  | cons c cs ih =>
    simp only [classRanges] at h
    split at h
    · cases h
      simp
    · split at h
      · have := ih h
        simp only [List.length_cons]
        omega
      · split at h
        · split at h
          · cases h
          · have := ih h
            simp only [List.length_cons]
            omega
        · have := ih h
          simp only [List.length_cons]
          omega

/-- A class whose opening bracket was read, and what stands after it. -/
def classToken (cs : List Char) : Except Fault (Token × List Char) :=
  let start : ClassState := ⟨[], true, false⟩
  match cs with
  | '!' :: r => (classRanges start r).map fun (v, r) => (.oneOf true v, r)
  | '^' :: r => (classRanges start r).map fun (v, r) => (.oneOf true v, r)
  | r => (classRanges start r).map fun (v, r) => (.oneOf false v, r)

theorem classToken_rest_length {cs : List Char} {t : Token} {r : List Char}
    (h : classToken cs = .ok (t, r)) : r.length < cs.length := by
  have key : ∀ {s : ClassState} {ds : List Char} {b : Bool},
      (classRanges s ds).map (fun (v, r) => (Token.oneOf b v, r)) = .ok (t, r) →
        r.length < ds.length := by
    intro s ds b hm
    cases hc : classRanges s ds with
    | error e => simp [hc, Except.map] at hm
    | ok p =>
      obtain ⟨v, r'⟩ := p
      simp only [hc, Except.map, Except.ok.injEq, Prod.mk.injEq] at hm
      obtain ⟨-, rfl⟩ := hm
      exact classRanges_rest_length hc
  unfold classToken at h
  split at h
  · have := key h
    simp only [List.length_cons]
    omega
  · have := key h
    simp only [List.length_cons]
    omega
  · exact key h

/-! ## Patterns -/

/-- A group that is not closed yet: the tokens before it, and its finished branches, both with the
newest first. -/
structure Group where
  before : List Token
  branches : List (List Token)

/-- A pattern while it is read: the tokens of the current branch, the newest first, the groups
around it, the innermost first, and the character read last. -/
structure State where
  tokens : List Token
  groups : List Group
  previous : Option Char

def State.push (s : State) (t : Token) : State :=
  { s with tokens := t :: s.tokens }

/-- Whether two stars may be a whole component after `previous`. -/
def State.startsComponent (s : State) : Bool :=
  s.previous = some '/'
    || (!s.groups.isEmpty && (s.previous = some ',' || s.previous = some '{'))

/-- Two stars with `next` after them: the state, and whether the character after them is used up. -/
def State.stars (s : State) (next : Option Char) : State × Bool :=
  let plain := (s.push .star).push .star
  match s.tokens with
  | [] =>
    if next = none ∨ next = some '/' then (s.push .directories, true) else (plain, false)
  | last :: rest =>
    if s.startsComponent then
      let ends := next = none ∨ (!s.groups.isEmpty ∧ (next = some ',' ∨ next = some '}'))
      if ends ∨ next = some '/' then
        let t := match last with
          | .directories => .directories
          | .beneath => .beneath
          | _ => if ends then .beneath else .between
        ({ s with tokens := t :: rest }, next = some '/')
      else (plain, false)
    else (plain, false)

/-- Whether a token is a group of nothing. -/
def Token.isVoid : Token → Bool
  | .choice [] => true
  | _ => false

/-- Ends the innermost group. Branches of nothing are dropped. -/
def State.closeGroup (s : State) : Except Fault State :=
  match s.groups with
  | [] => .error .unopenedGroup
  | g :: gs =>
    let branches := (s.tokens :: g.branches).filter fun b => !b.all Token.isVoid
    .ok { s with tokens := .choice (branches.reverse.map List.reverse) :: g.before, groups := gs }

/-- Starts the next branch of the innermost group; outside of groups a comma is a character. -/
def State.comma (s : State) : State :=
  match s.groups with
  | [] => s.push (.literal ',')
  | g :: gs => { s with tokens := [], groups := ⟨g.before, s.tokens :: g.branches⟩ :: gs }

/-- The tokens of the pattern `cs` after the state `s`. -/
def readTokens (s : State) (cs : List Char) : Except Fault (List Token) :=
  match cs with
  | [] => if s.groups.isEmpty then .ok s.tokens.reverse else .error .unclosedGroup
  | '?' :: r => readTokens { s.push .any with previous := some '?' } r
  | '*' :: '*' :: r =>
    let (t, used) := s.stars r.head?
    if used then readTokens { t with previous := r.head?.or (some '*') } (r.drop 1)
    else readTokens { t with previous := some '*' } r
  | '*' :: r => readTokens { s.push .star with previous := some '*' } r
  | '[' :: r =>
    match _h : classToken r with
    | .error e => .error e
    | .ok (t, r') => readTokens { s.push t with previous := some ']' } r'
  | '{' :: r => readTokens ⟨[], ⟨s.tokens, []⟩ :: s.groups, some '{'⟩ r
  | '}' :: r =>
    match s.closeGroup with
    | .error e => .error e
    | .ok t => readTokens { t with previous := some '}' } r
  | ',' :: r => readTokens { s.comma with previous := some ',' } r
  | '\\' :: c :: r => readTokens { s.push (.literal c) with previous := some c } r
  | ['\\'] => .error .danglingEscape
  | c :: r => readTokens { s.push (.literal c) with previous := some c } r
  termination_by cs.length
  decreasing_by
    all_goals first
      | (have h := classToken_rest_length _h; simp only [List.length_cons]; omega)
      | (simp only [List.length_drop, List.length_cons]; omega)

end Glob

structure Glob where
  pattern : String
  tokens : List Glob.Token

def Glob.parse (pattern : String) : Except Glob.Fault Glob :=
  (Glob.readTokens ⟨[], [], none⟩ pattern.toList).map fun ts => ⟨pattern, ts⟩

end ExplicitSelf
