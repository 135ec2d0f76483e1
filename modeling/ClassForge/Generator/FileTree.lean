import Std.Data.HashMap
import ClassForge.Generator.DumpPath

/-!
# File trees

The files and directories below one directory, as far as writing classes needs them.

* `FileTree.write` creates missing directories on the way, and fails where a file stands in the
  way of a directory or the other way round, or where a path or a name is not permitted.
* `FileTree.dump` writes a class to its dump path.
-/

namespace ClassForge

/-- What a path names. -/
inductive FileNode where
  | directory
  | file (bytes : List UInt8)

/-- A place seen from the tree's own directory. -/
structure Place where
  /-- How many directories up the way to it starts. -/
  up : Nat := 0
  /-- The paths of what the way then leads down through, the last one first. -/
  trail : List String := []

namespace Place

/-- The path to a place. -/
def path (p : Place) : String :=
  match p.trail with
  | [] => "/".intercalate (List.replicate p.up "..")
  | path :: _ => path

/-- The directory that holds a place. -/
def parent : Place → Place
  | ⟨up, []⟩ => ⟨up + 1, []⟩
  | ⟨up, _ :: rest⟩ => ⟨up, rest⟩

/-- The place of a name in a directory. -/
def child (p : Place) (name : String) : Place :=
  { p with trail := (if p.path = "" then name else p.path ++ "/" ++ name) :: p.trail }

/-- The place that a component leads to. -/
def step (p : Place) (name : String) : Place := if name = ".." then p.parent else p.child name

end Place

/-- Files and directories by their paths. The tree's own directory and those that hold it are
always there. -/
structure FileTree where
  nodes : Std.HashMap String FileNode := ∅

namespace FileTree

/-- The most bytes of a name. -/
def nameLimit : Nat := 255

/-- The most bytes of a path below the tree's own directory. A complete path has at most 4095, and
16 of them lead to the tree. -/
def pathLimit : Nat := 4095 - 16

/-- May a path be asked for at all? It has no zero byte and is not too long. -/
def permitsPath (path : String) : Bool :=
  path.utf8ByteSize ≤ pathLimit && !path.toList.contains '\x00'

/-- The components of a path, without empty ones and without `.`. -/
def components (path : String) : List String :=
  ((DumpPath.segments path.toList).map String.ofList).filter fun s => s != "" && s != "."

/-- What stands at a place. -/
def node? (t : FileTree) (p : Place) : Option FileNode :=
  if p.trail.isEmpty then some .directory else t.nodes[p.path]?

/-- The tree with something at a place. -/
def set (t : FileTree) (p : Place) (node : FileNode) : FileTree := ⟨t.nodes.insert p.path node⟩

/-- Goes one component on from a directory, to a directory. -/
def follow (t : FileTree) (p : Place) (name : String) : Option Place :=
  let next := p.step name
  match t.node? next with
  | some .directory => some next
  | _ => none

/-- Goes one component on from a directory, creating a directory where nothing stands. Answers
where that leads, unless something is in the way. -/
def enter (t : FileTree) (p : Place) (name : String) : Option Place × FileTree :=
  let next := p.step name
  match t.node? next with
  | some .directory => (some next, t)
  | some (.file _) => (none, t)
  | none => if name.utf8ByteSize ≤ nameLimit then (some next, t.set next .directory) else (none, t)

/-- Goes several components on. Directories created before something is in the way stay. -/
def enterAll (t : FileTree) (p : Place) : List String → Option Place × FileTree
  | [] => (some p, t)
  | name :: rest =>
    match t.enter p name with
    | (none, t) => (none, t)
    | (some p, t) => enterAll t p rest

/-- Writes a file into a directory. -/
def writeAt (t : FileTree) (p : Place) (name : String) (bytes : List UInt8) : Bool × FileTree :=
  let next := p.step name
  match t.node? next with
  | some .directory => (false, t)
  | some (.file _) => (true, t.set next (.file bytes))
  | none =>
    if name.utf8ByteSize ≤ nameLimit then (true, t.set next (.file bytes)) else (false, t)

/-- Writes a file, after the directories it needs. The path of the directories is judged before
one is created, the path of the file after all are. -/
def write (t : FileTree) (path : String) (bytes : List UInt8) : Bool × FileTree :=
  if permitsPath (DumpPath.parent path) then
    match t.enterAll {} (components path).dropLast, (components path).getLast? with
    | (some p, t), some name => if permitsPath path then t.writeAt p name bytes else (false, t)
    | (_, t), _ => (false, t)
  else (false, t)

/-- The content of a file. -/
def read? (t : FileTree) (path : String) : Option (List UInt8) := do
  guard (permitsPath path)
  let name ← (components path).getLast?
  let p ← (components path).dropLast.foldlM t.follow {}
  match t.node? (p.step name) with
  | some (.file bytes) => some bytes
  | _ => none

/-- All files of the tree with their paths, in the order of the paths. -/
def files (t : FileTree) : List (String × List UInt8) :=
  let all := t.nodes.toList.filterMap fun (path, node) =>
    match node with
    | .file bytes => if path.startsWith "../" then none else some (path, bytes)
    | .directory => none
  all.mergeSort fun a b => a.1 ≤ b.1

/-- Writes a class below a directory, and answers its path. A failure has no other consequence. -/
def dump (t : FileTree) (dir name : String) (bytes : List UInt8) : Option String × FileTree :=
  let path := DumpPath.ofName dir name
  match t.write path bytes with
  | (true, t) => (some (DumpPath.relative path), t)
  | (false, t) => (none, t)

end FileTree

end ClassForge
