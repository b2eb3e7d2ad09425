/-!
# File trees

Files, directories and symbolic links, with the rules for following a path through them
from a working directory.
-/

namespace Phrasebook

/-- Why a path could not be followed or read. -/
inductive FileError where
  | notFound
  | notDirectory
  | isDirectory
  | tooManyLinks
deriving DecidableEq, Repr

def FileError.message : FileError → String
  | .notFound => "No such file or directory (os error 2)"
  | .notDirectory => "Not a directory (os error 20)"
  | .isDirectory => "Is a directory (os error 21)"
  | .tooManyLinks => "Too many levels of symbolic links (os error 40)"

inductive FileNode where
  | file (content : ByteArray)
  | directory
  | link (target : String)

/-- The nodes of a tree by the names that lead to them from the root, and the names that
lead to the working directory. -/
structure FileTree where
  nodes : List (List String × FileNode) := []
  base : List String := []

namespace FileTree

/-! ## Paths -/

/-- The names of a path. A slash at the end asks for a directory, as a dot does. -/
def pathNames (path : String) : List String :=
  let pieces := path.splitOn "/"
  let names := pieces.filter (· != "")
  if pieces.getLast? = some "" then names ++ ["."] else names

def isAbsolute (path : String) : Bool := path.startsWith "/"

/-- A path below another one. -/
def joinPath (base name : String) : String :=
  if isAbsolute name then name
  else if base = "" || base.endsWith "/" then base ++ name
  else base ++ "/" ++ name

/-- The names of a path without the dots that change nothing; a dot at the start stays. -/
def components (path : String) : List String :=
  let names := (path.splitOn "/").filter (· != "")
  let root := if isAbsolute path then ["/"] else []
  match names with
  | "." :: rest => (if isAbsolute path then root else ["."]) ++ rest.filter (· != ".")
  | names => root ++ names.filter (· != ".")

/-- The last name of a path, if it is one. -/
def fileName? (path : List String) : Option String :=
  match path.getLast? with
  | some name => if name = "." || name = ".." || name = "/" then none else some name
  | none => none

/-- Everything but the last name. -/
def parent? (path : List String) : Option (List String) :=
  match path with
  | [] | ["/"] => none
  | path => some path.dropLast

/-- A path from names. -/
def ofComponents (names : List String) : String :=
  match names with
  | "/" :: rest => "/" ++ "/".intercalate rest
  | names => "/".intercalate names

/-- What follows the last dot of a name, unless the name starts with it. -/
def extension? (name : String) : Option String :=
  match (name.splitOn ".").reverse with
  | [] | [_] => none
  | [_, ""] => none
  | last :: _ => some last

/-! ## Nodes -/

def node? (t : FileTree) (path : List String) : Option FileNode :=
  if path = [] then some .directory else t.nodes.lookup path

def setNode (t : FileTree) (path : List String) (node : FileNode) : FileTree :=
  { t with nodes := (t.nodes.filter fun (p, _) => p != path) ++ [(path, node)] }

/-- Make sure that a directory and the directories above it exist. -/
def addDirectory (t : FileTree) (path : List String) : FileTree :=
  (List.range path.length).foldl (fun t n =>
    let dir := path.take (n + 1)
    if (t.node? dir).isSome then t else t.setNode dir .directory) t

/-- The names that a path spells out, without following links. -/
def absoluteNames (t : FileTree) (path : String) : List String :=
  (pathNames path).foldl (fun names name =>
    if name = "." then names else if name = ".." then names.dropLast else names ++ [name])
    (if isAbsolute path then [] else t.base)

/-- Add a node and the directories above it. -/
def addNode (t : FileTree) (path : String) (node : FileNode) : FileTree :=
  let names := t.absoluteNames path
  match node with
  | .directory => t.addDirectory names
  | node => (t.addDirectory names.dropLast).setNode names node

/-- The names in a directory, in alphabetical order. -/
def children (t : FileTree) (dir : List String) : List String :=
  let names := t.nodes.filterMap fun (path, _) =>
    if path.dropLast = dir then path.getLast? else none
  names.mergeSort fun a b => a ≤ b

/-! ## Following paths -/

/-- So many links are followed on the way along one path. -/
def maxLinks : Nat := 40

/-- Follow names from a directory. A link at the end is followed on demand. -/
def follow (t : FileTree) (followLast : Bool) (links : Nat) (dir : List String) :
    List String → Except FileError (List String × FileNode)
  | [] => .ok (dir, .directory)
  | "." :: rest => follow t followLast links dir rest
  | ".." :: rest => follow t followLast links dir.dropLast rest
  | name :: rest =>
    let path := dir ++ [name]
    match t.node? path with
    | none => .error .notFound
    | some .directory => follow t followLast links path rest
    | some (.file content) => if rest = [] then .ok (path, .file content) else .error .notDirectory
    | some (.link target) =>
      if rest = [] && !followLast then .ok (path, .link target)
      else
        match links with
        | 0 => .error .tooManyLinks
        | links + 1 =>
          follow t followLast links (if isAbsolute target then [] else dir)
            (pathNames target ++ rest)
termination_by names => (links, names.length)

/-- Follow a path. A link at its end is followed on demand. -/
def locate (t : FileTree) (path : String) (followLast : Bool) :
    Except FileError (List String × FileNode) :=
  if path = "" then .error .notFound
  else t.follow followLast maxLinks (if isAbsolute path then [] else t.base) (pathNames path)

/-- Follow a path to a file or directory. -/
def resolve (t : FileTree) (path : String) : Except FileError (List String × FileNode) :=
  t.locate path true

def read (t : FileTree) (path : String) : Except FileError ByteArray :=
  match t.resolve path with
  | .ok (_, .file content) => .ok content
  | .ok (_, .directory) => .error .isDirectory
  | .ok (_, .link _) => .error .tooManyLinks
  | .error e => .error e

def pathExists (t : FileTree) (path : String) : Bool :=
  match t.resolve path with
  | .ok _ => true
  | .error _ => false

/-! ## Walking -/

/-- The files and links below a directory, depth first. The first path is the name that
they are reported under, the second one leads to the directory. -/
def walkBelow (t : FileTree) (shown : String) (dir : List String) : Nat → List String
  | 0 => []
  | depth + 1 =>
    (t.children dir).flatMap fun name =>
      let path := dir ++ [name]
      match t.node? path with
      | some .directory => walkBelow t (joinPath shown name) path depth
      | _ => [joinPath shown name]

/-- No path of the tree is longer. -/
def height (t : FileTree) : Nat :=
  t.nodes.foldl (fun n (path, _) => max n path.length) 0

/-- The files and links below a path. Links are not descended into, except that the path
itself may be one. -/
def walk (t : FileTree) (root : String) : Except FileError (List String) := do
  match ← t.locate root false with
  | (dir, .directory) => return t.walkBelow root dir t.height
  | (_, .file _) => return [root]
  | (_, .link _) =>
    match ← t.resolve root with
    | (dir, .directory) => return root :: t.walkBelow root dir t.height
    | _ => return [root]

end FileTree

end Phrasebook
