import LsmStore.Error

/-!
# Volumes

The store keeps its data in a directory tree. A volume is that tree as a value. A file is an
inode, and a path names an inode or is a directory; the root itself is always a directory.
Files are opened by inode, as a process holds an open file: writing to a path that names a file
replaces the contents of that same inode, a rename moves the name and keeps the inode, and a
removed file keeps its contents for whoever opened it, while a new file at the old path is a
new inode.

Paths are relative to the root and joined by slashes; empty and `.` components are dropped.
Operations fail as the operating system does: a name longer than 255 bytes is `nameTooLong`, a
missing parent is `notFound`, a parent that is a file is `notDirectory`, a file operation on a
directory is `isDirectory`, and making a directory where a file stands is `alreadyExists`. A
directory reports a length of twenty bytes for each name in it and for itself and its parent,
as a file system kept in memory does.

## Main definitions

* `Node` — what a path shows: a file with its contents, or a directory
* `LsmStore.Volume` — the names of the tree and the contents of its inodes
* `Volume.write`, `Volume.touch`, `Volume.remove`, `Volume.rename` — files by path
* `Volume.contents`, `Volume.writeAt`, `Volume.resize` — files by inode
* `Volume.createDirAll`, `Volume.children`, `Volume.removeTree` — directories
* `Volume.listing` — every path with what it shows, in byte order of the paths
* `VolumeM` — a sequence of operations on a volume that keeps its effects up to a failure
-/

namespace LsmStore

/-- What a path of a volume shows. -/
inductive Node where
  | file (contents : Bytes)
  | dir
deriving DecidableEq, Repr

/-- What a name of a volume is bound to: a file, by its inode, or a directory. -/
inductive Link where
  | file (inode : Nat)
  | dir
deriving DecidableEq, Repr

/-- A directory tree: the names in it, and the contents of every file by inode. A file whose
name is gone keeps its contents, since an open handle may still use them. -/
structure Volume where
  links : List (String × Link) := []
  inodes : List (Nat × Bytes) := []
  /-- The inode the next new file gets. -/
  nextInode : Nat := 0
deriving Repr

namespace Volume

/-- The longest name a directory entry can have, in bytes. -/
def nameMax : Nat := 255

/-- Joins a directory and a name; the empty directory is the root. -/
def join (dir name : String) : String :=
  if dir.isEmpty then name else dir ++ "/" ++ name

/-- The texts between the slashes of a path, empty ones included. -/
def parts (path : String) : List String := (path.toList.splitOn '/').map String.ofList

/-- The components of a path, without empty and `.` components. -/
def components (path : String) : List String :=
  (parts path).filter fun c => !c.isEmpty && c != "."

/-- A path in the form the volume keeps it: its components joined by slashes. -/
def normalize (path : String) : String := "/".intercalate (components path)

/-- The directories a normalized path lies in, outermost first, the root excepted. -/
def ancestors (path : String) : List String :=
  let ps := parts path
  (List.range (ps.length - 1)).map fun k => "/".intercalate (ps.take (k + 1))

/-- The contents of an inode; an inode never written is empty. -/
def contents (v : Volume) (inode : Nat) : Bytes :=
  ((v.inodes.find? (·.1 == inode)).map (·.2)).getD []

/-- Replaces the contents of an inode. -/
def setContents (v : Volume) (inode : Nat) (bs : Bytes) : Volume :=
  { v with inodes := (inode, bs) :: v.inodes.filter (·.1 != inode) }

/-- What a normalized path is bound to. -/
def lookup (v : Volume) (path : String) : Option Link :=
  if path.isEmpty then some .dir else (v.links.find? (·.1 == path)).map (·.2)

/-- Whether a normalized `path` lies strictly inside the directory `dir`. -/
def within (dir path : String) : Bool :=
  if dir.isEmpty then !path.isEmpty else (dir ++ "/").toList.isPrefixOf path.toList

/-- A path inside `dir`, relative to it. -/
def relative (dir path : String) : String :=
  if dir.isEmpty then path else String.ofList (path.toList.drop (dir.length + 1))

/-- The names directly inside the normalized directory `dir`. -/
def names (v : Volume) (dir : String) : List String :=
  v.links.filterMap fun (p, _) =>
    if within dir p then
      let rest := relative dir p
      if '/' ∈ rest.toList then none else some rest
    else none

/-- What one name adds to the length a directory reports. -/
def direntSize : Nat := 20

/-- The length the file system reports for the normalized directory `dir`: one entry for
itself, one for its parent, and one for each name in it. -/
def dirLength (v : Volume) (dir : String) : Nat := direntSize * (2 + (v.names dir).length)

/-- What a path shows. -/
def find? (v : Volume) (path : String) : Option Node :=
  (v.lookup (normalize path)).map fun
    | .file i => .file (v.contents i)
    | .dir => .dir

/-- The inode a path names, if it names a file. -/
def inode? (v : Volume) (path : String) : Option Nat :=
  match v.lookup (normalize path) with
  | some (.file i) => some i
  | _ => none

/-- Whether a path is a directory. -/
def isDir (v : Volume) (path : String) : Bool := v.find? path == some .dir

/-- The length of a file, or `dirLength` for a directory. -/
def length? (v : Volume) (path : String) : Option Nat :=
  match v.find? path with
  | some (.file bs) => some bs.length
  | some .dir => some (v.dirLength (normalize path))
  | none => none

/-- Whether a name is longer than a directory entry allows. -/
def tooLong (name : String) : Bool := nameMax < name.utf8ByteSize

/-- Checks the way to a normalized path component by component, as a path lookup does: each
name must fit, and each directory on the way must exist and be a directory. -/
def walk (v : Volume) (dir : String) : List String → Except IoFault Unit
  | [] => .ok ()
  | [name] => if tooLong name then .error .nameTooLong else .ok ()
  | name :: rest => do
    if tooLong name then throw .nameTooLong
    let d := join dir name
    match v.lookup d with
    | some .dir => walk v d rest
    | some (.file _) => throw .notDirectory
    | none => throw .notFound

/-- Normalizes a path and checks the way to it. -/
def resolve (v : Volume) (path : String) : Except IoFault String := do
  let p := normalize path
  v.walk "" (parts p)
  pure p

/-- Binds a normalized path, replacing its old binding. -/
def bind (v : Volume) (path : String) (l : Link) : Volume :=
  { v with links := (path, l) :: v.links.filter (·.1 != path) }

/-- Removes the binding of a normalized path. -/
def unbind (v : Volume) (path : String) : Volume :=
  { v with links := v.links.filter (·.1 != path) }

/-- A new inode with the given contents, bound to a normalized path. -/
def create (v : Volume) (path : String) (bs : Bytes) : Volume :=
  ({ v with nextInode := v.nextInode + 1 }.bind path (.file v.nextInode)).setContents v.nextInode bs

/-- Opens a file for writing without truncating it, creating it when missing; answers its
inode. -/
def touch (v : Volume) (path : String) : Except IoFault (Nat × Volume) := do
  let p ← v.resolve path
  match v.lookup p with
  | some .dir => .error .isDirectory
  | some (.file i) => .ok (i, v)
  | none => .ok (v.nextInode, v.create p [])

/-- Writes a file: a file already at the path gets the new contents in its own inode, a missing
one is created. -/
def write (v : Volume) (path : String) (bs : Bytes) : Except IoFault Volume := do
  let (i, v) ← v.touch path
  pure (v.setContents i bs)

/-- The contents of a file, or why it cannot be read. -/
def read (v : Volume) (path : String) : Except IoFault Bytes := do
  let p ← v.resolve path
  match v.lookup p with
  | some (.file i) => .ok (v.contents i)
  | some .dir => .error .isDirectory
  | none => .error .notFound

/-- Writes bytes into an inode at `offset`, as a positioned write does: a gap after the end
is filled with zeros, and writing nothing changes nothing, wherever the offset. Writing at the
end is appending, done without rebuilding the front. -/
def writeAt (v : Volume) (inode offset : Nat) (bs : Bytes) : Volume :=
  let old := v.contents inode
  if bs.isEmpty then v
  else if old.length = offset then v.setContents inode (old ++ bs)
  else
    let before := old.take offset ++ List.replicate (offset - old.length) 0
    v.setContents inode (before ++ bs ++ old.drop (offset + bs.length))

/-- Sets the length of an inode: cut, or extended with zeros. -/
def resize (v : Volume) (inode len : Nat) : Volume :=
  let old := v.contents inode
  v.setContents inode (old.take len ++ List.replicate (len - old.length) 0)

/-- Removes a file's name. Its inode keeps its contents. -/
def remove (v : Volume) (path : String) : Except IoFault Volume := do
  let p ← v.resolve path
  match v.lookup p with
  | some (.file _) => .ok (v.unbind p)
  | some .dir => .error .isDirectory
  | none => .error .notFound

/-- Removes a file, treating one that is already gone as removed; tells whether it was there. -/
def removeIfExists (v : Volume) (path : String) : Except IoFault (Bool × Volume) :=
  match v.remove path with
  | .ok v' => .ok (true, v')
  | .error .notFound => .ok (false, v)
  | .error e => .error e

/-- Renames a file: the destination name is bound to the source's inode, replacing a file
there. -/
def rename (v : Volume) (src dst : String) : Except IoFault Volume := do
  let s ← v.resolve src
  let i ← match v.lookup s with
    | some (.file i) => pure i
    | some .dir => throw .isDirectory
    | none => throw .notFound
  let d ← v.resolve dst
  match v.lookup d with
  | some .dir => .error .isDirectory
  | _ => .ok ((v.unbind s).bind d (.file i))

/-- Makes a directory and every missing directory above it. -/
def createDirAll (v : Volume) (path : String) : Except IoFault Volume :=
  let p := normalize path
  if p.isEmpty then .ok v
  else
    List.foldlM (fun w d =>
      match w.lookup d with
      | some .dir => .ok w
      | some (.file _) => .error (if d == p then .alreadyExists else .notDirectory)
      | none =>
        if tooLong ((parts d).getLast?.getD "") then .error .nameTooLong
        else .ok (w.bind d .dir)) v (ancestors p ++ [p])

/-- The names directly inside a directory. -/
def children (v : Volume) (dir : String) : Except IoFault (List String) := do
  let d ← v.resolve dir
  match v.lookup d with
  | some .dir => .ok (v.names d)
  | some (.file _) => .error .notDirectory
  | none => .error .notFound

/-- Removes a directory with everything in it. -/
def removeTree (v : Volume) (dir : String) : Volume :=
  let d := normalize dir
  { v with links := v.links.filter fun (p, _) => p != d && !within d p }

/-- Every path inside `dir`, relative to it, with what it shows, in byte order of the paths. -/
def listing (v : Volume) (dir : String) : List (String × Node) :=
  let d := normalize dir
  let inside := v.links.filterMap fun (p, l) =>
    if within d p then
      some (relative d p, match l with
        | .file i => Node.file (v.contents i)
        | .dir => Node.dir)
    else none
  inside.mergeSort fun a b => decide (a.1 ≤ b.1)

/-- A volume with the given paths, each file a new inode. Directories must come before what
they hold. -/
def ofTree (nodes : List (String × Node)) : Volume :=
  nodes.foldl (fun v (p, n) =>
    match n with
    | .file bs => v.create (normalize p) bs
    | .dir => v.bind (normalize p) .dir) {}

end Volume

/-- Work on a volume that may fail; what it changed before failing stays changed, as on a disk. -/
abbrev VolumeM := ExceptT StoreError (StateM Volume)

namespace VolumeM

/-- Fails with the error of `r`, if any. -/
def lift {α : Type} (r : Except StoreError α) : VolumeM α :=
  match r with
  | .ok a => pure a
  | .error e => throw e

/-- Runs one operation on the volume, failing as it does. -/
def io (f : Volume → Except IoFault Volume) : VolumeM Unit := do
  match f (← get) with
  | .ok v => set v
  | .error e => throw (.io e)

/-- Asks the volume something, failing as the question does. -/
def query {α : Type} (f : Volume → Except IoFault α) : VolumeM α := do
  match f (← get) with
  | .ok a => pure a
  | .error e => throw (.io e)

/-- Removes a file if it is there. -/
def removeIfPresent (path : String) : VolumeM Unit :=
  io fun v => (v.removeIfExists path).map (·.2)

end VolumeM

end LsmStore
