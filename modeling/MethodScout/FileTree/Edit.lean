import MethodScout.FileTree.Basic

/-!
# Changes to a file tree
-/

namespace MethodScout.FileTree

/-- Puts a node at a location, in place of the one that is there. -/
def set (t : FileTree) (l : Location) (node : Node) : FileTree where
  workingDirectory := t.workingDirectory
  nodes := (l, node) :: t.nodes.filter fun n => n.1 ≠ l
  distinct := by
    refine List.nodup_cons.2 ⟨fun h => ?_, ?_⟩
    · obtain ⟨n, hn, rfl⟩ := List.mem_map.1 h
      simpa using (List.mem_filter.1 hn).2
    · exact t.distinct.sublist (List.filter_sublist.map _)

/-- Removes a location and all below it. -/
def removeAt (t : FileTree) (l : Location) : FileTree where
  workingDirectory := t.workingDirectory
  nodes := t.nodes.filter fun n => !l.isPrefixOf n.1
  distinct := t.distinct.sublist (List.filter_sublist.map _)

/-- Makes a directory in a directory that is there. -/
def makeDirectory (t : FileTree) (path : PathText) : Except FileError FileTree := do
  let l ← t.follow .replace path
  match t.get? l with
  | some _ => throw .alreadyExists
  | none => return t.set l .directory

/-- Makes a directory and those on the way to it. The directories made before a failure stay. `depth` bounds the
number of directories on the way. -/
def makeDirectories (t : FileTree) : (depth : Nat) → (path : PathText) → FileTree × Except FileError Unit
  | 0, _ => (t, .error .notFound)
  | depth + 1, path =>
    if path = "" then (t, .ok ())
    else
      match t.makeDirectory path with
      | .ok t' => (t', .ok ())
      | .error .notFound =>
        match Path.parent? path with
        | none => (t, .error .notFound)
        | some parent =>
          match t.makeDirectories depth parent with
          | (t', .error e) => (t', .error e)
          | (t', .ok ()) =>
            match t'.makeDirectory path with
            | .ok t'' => (t'', .ok ())
            | .error e => if t'.isDirectory path then (t', .ok ()) else (t', .error e)
      | .error e => if t.isDirectory path then (t, .ok ()) else (t, .error e)

/-- Makes a directory and those on the way to it. -/
def makePath (t : FileTree) (path : PathText) : FileTree × Except FileError Unit :=
  t.makeDirectories (path.bytes.length + 1) path

/-- Writes a file, in place of the one that is there. -/
def putFile (t : FileTree) (path : PathText) (content : Bytes) : Except FileError FileTree := do
  let l ← t.follow .write path
  match t.get? l with
  | some .directory => throw .isDirectory
  | _ => return t.set l (.file content)

/-- Makes a node and the directories on the way to it. -/
def place (t : FileTree) (path : PathText) (node : Node) : Except FileError FileTree := do
  let (t, made) := t.makePath ((Path.parent? path).getD "")
  let _ ← made
  match node with
  | .file content => t.putFile path content
  | .directory =>
    let (t, made) := t.makePath path
    let _ ← made
    return t
  | .link _ =>
    let l ← t.follow .replace path
    return t.set l node

/-- Removes a node and all below it. A link is removed, not what it leads to. -/
def remove (t : FileTree) (path : PathText) : Except FileError FileTree := do
  return t.removeAt (← t.follow .replace path)

end MethodScout.FileTree
