import EdgeDot.Line.Source

/-!
# Trees of files

A tree of directories and regular files, without links.  Paths are walked from the working
directory or, behind a leading slash, from the root, which is its own parent.

* `FileTree.locate`   the place that a path leads to
* `FileTree.create`   makes or empties the file that a path leads to
* `FileTree.node?_put_self`, `FileTree.node?_put_of_ne`   what a change of one place changes
-/

namespace EdgeDot

/-- a place in a tree: the names on the way to it from the root -/
abbrev Place := List Text

inductive Node where
  | directory
  | file (content : Bytes)
deriving DecidableEq

/-- directories and files by their places, the root left out, and the working directory -/
structure FileTree where
  nodes : List (Place × Node) := []
  workingDirectory : Place := []

def pathParts : Text → List Text
  | [] => [[]]
  | c :: s =>
    if c = '/' then [] :: pathParts s
    else match pathParts s with
      | [] => [[c]]
      | part :: parts => (c :: part) :: parts

namespace FileTree

/-! ## places -/

def node? (t : FileTree) (place : Place) : Option Node :=
  if place = [] then some .directory else t.nodes.lookup place

def put (t : FileTree) (place : Place) (node : Node) : FileTree :=
  { t with nodes := (place, node) :: t.nodes.filter fun entry => entry.1 ≠ place }

/-- the tree with a directory at a place and on the way to it, where there was nothing -/
def addDirectory (t : FileTree) (place : Place) : FileTree :=
  (List.range place.length).foldl (fun t n =>
    let onTheWay := place.take (n + 1)
    if (t.node? onTheWay).isSome then t else t.put onTheWay .directory) t

/-- the tree with a file at a place, and with the directories on the way to it -/
def addFile (t : FileTree) (place : Place) (content : Bytes) : FileTree :=
  (t.addDirectory place.dropLast).put place (.file content)

/-- the regular files below a place, by the names that lead to them from there -/
def filesBelow (t : FileTree) (place : Place) : List (Place × Bytes) :=
  t.nodes.filterMap fun entry =>
    match entry.2 with
    | .directory => none
    | .file content =>
      if place.isPrefixOf entry.1 then some (entry.1.drop place.length, content) else none

theorem node?_root (t : FileTree) : t.node? [] = some .directory := rfl

theorem node?_put_self (t : FileTree) {place : Place} (node : Node) (h : place ≠ []) :
    (t.put place node).node? place = some node := by
  simp [node?, put, h]

theorem node?_put_of_ne (t : FileTree) {place other : Place} (node : Node) (h : other ≠ place) :
    (t.put place node).node? other = t.node? other := by
  have kept : ∀ nodes : List (Place × Node),
      (nodes.filter fun entry => entry.1 ≠ place).lookup other = nodes.lookup other := by
    intro nodes
    induction nodes with
    | nil => rfl
    | cons entry nodes ih =>
      obtain ⟨key, value⟩ := entry
      by_cases same : key = place
      · have apart : (other == key) = false := by simpa [same] using h
        rw [List.filter_cons_of_neg (by simpa using same), ih, List.lookup_cons, apart]
      · rw [List.filter_cons_of_pos (by simpa using same), List.lookup_cons, List.lookup_cons, ih]
  have : (other == place) = false := by simpa using h
  simp only [node?, put, List.lookup_cons, this]
  split
  · rfl
  · exact kept t.nodes

/-! ## paths -/

def longestName : Nat := 255

def longestPath : Nat := 4095

/-- refuses a path that leads nowhere in any tree -/
def checkPath (path : Text) : Except IoError Unit :=
  if '\x00' ∈ path then .error .invalidPath
  else if path = [] then .error .notFound
  else if longestPath < path.byteLength then .error .invalidFilename
  else .ok ()

/-- goes on from a place by one part of a path; only directories lead anywhere -/
def step (t : FileTree) (place : Place) (part : Text) : Except IoError Place :=
  if t.node? place ≠ some .directory then .error .notADirectory
  else if part = [] ∨ part = ".".toList then .ok place
  else if part = "..".toList then .ok place.dropLast
  else if longestName < part.byteLength then .error .invalidFilename
  else
    match t.node? (place ++ [part]) with
    | none => .error .notFound
    | some _ => .ok (place ++ [part])

def walk (t : FileTree) (place : Place) : List Text → Except IoError Place
  | [] => .ok place
  | part :: parts =>
    match t.step place part with
    | .error e => .error e
    | .ok place => t.walk place parts

def start (t : FileTree) (path : Text) : Place :=
  if path.head? = some '/' then [] else t.workingDirectory

def locate (t : FileTree) (path : Text) : Except IoError Place :=
  match checkPath path with
  | .error e => .error e
  | .ok () => t.walk (t.start path) (pathParts path)

/-- what is read at a place: a directory can be opened but not read -/
def source (t : FileTree) (place : Place) : Source :=
  match t.node? place with
  | some (.file content) => .ofBytes content
  | some .directory => .ofBytes [] (.broken .isADirectory)
  | none => .ofBytes []

/-- makes an empty file of the given name in a directory, or empties the one that is there -/
def createIn (t : FileTree) (place : Place) (name : Text) : Except IoError (Place × FileTree) :=
  if longestName < name.byteLength then .error .invalidFilename
  else if t.node? (place ++ [name]) = some .directory then .error .isADirectory
  else .ok (place ++ [name], t.put (place ++ [name]) (.file []))

/-- makes or empties the file that a path leads to; the directory must be there, and the path
must not end like that of a directory -/
def create (t : FileTree) (path : Text) : Except IoError (Place × FileTree) :=
  match checkPath path with
  | .error e => .error e
  | .ok () =>
    let parts := pathParts path
    match parts.reverse.dropWhile List.isEmpty with
    | [] => .error .isADirectory
    | name :: before =>
      match t.walk (t.start path) before.reverse with
      | .error e => .error e
      | .ok place =>
        if t.node? place ≠ some .directory then .error .notADirectory
        else if parts.getLast? = some [] ∨ name = ".".toList ∨ name = "..".toList then
          .error .isADirectory
        else t.createIn place name

end FileTree

end EdgeDot
