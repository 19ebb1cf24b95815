import EdgeDot.Text.Basic

/-!
# Edges and lists of edges

An edge joins two names, which are arbitrary texts.  A list of edges keeps their order and
their duplicates.

* `EdgeList.toList_push`   a pushed edge comes last
* `EdgeList.ext_toList`    lists of edges that hold the same
-/

namespace EdgeDot

/-- a directed edge between two named nodes -/
structure Edge where
  source : Text
  target : Text
deriving DecidableEq

/-- an edge for a reader: `source -> target` -/
def Edge.display (e : Edge) : Text := e.source ++ " -> ".toList ++ e.target

/-- edges in the order of the input -/
structure EdgeList where
  edges : Array Edge
deriving DecidableEq

namespace EdgeList

def empty : EdgeList := ⟨#[]⟩

def ofList (edges : List Edge) : EdgeList := ⟨edges.toArray⟩

def toList (l : EdgeList) : List Edge := l.edges.toList

def push (l : EdgeList) (e : Edge) : EdgeList := ⟨l.edges.push e⟩

def length (l : EdgeList) : Nat := l.edges.size

def isEmpty (l : EdgeList) : Bool := l.edges.isEmpty

theorem toList_push (l : EdgeList) (e : Edge) : (l.push e).toList = l.toList ++ [e] := by
  simp [push, toList]

theorem ext_toList {l m : EdgeList} (h : l.toList = m.toList) : l = m := by
  cases l
  cases m
  exact congrArg _ (Array.toList_inj.1 h)

/-- pushes edges one after the other: the list after each step, the one at the start first -/
def pushEach (l : EdgeList) : List Edge → List EdgeList
  | [] => [l]
  | e :: edges => l :: (l.push e).pushEach edges

end EdgeList

end EdgeDot
