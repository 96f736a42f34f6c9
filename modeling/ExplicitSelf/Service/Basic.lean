import ExplicitSelf.FileTree.Basic
import ExplicitSelf.Index.Node
import ExplicitSelf.Service.Cursor
import ExplicitSelf.Service.Error

/-!
# Semantic services

A semantic service answers two kinds of queries about a source file and the arguments of its
compiler: what the file refers to, and what stands at an offset. Files may change while a service
works on an index, so that query also gives the files after it.
-/
namespace ExplicitSelf

/-- mirrors `SemanticService` -/
structure Service where
  index : FileTree → Path → List String → FileTree × Except Service.Error Index.Node
  cursor : FileTree → Path → Nat → List String → Except Service.Error Service.Cursor

inductive Service.Query where
  | index (file : Path) (arguments : List String)
  | cursor (file : Path) (offset : Nat) (arguments : List String)
  deriving DecidableEq, Repr

end ExplicitSelf
