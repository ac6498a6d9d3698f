/-! # Paths

A path is walked name by name, from the working directory or, if it begins with
a slash, from the root. Whatever is walked on from has to be a directory, so a
slash or a dot after the name of a file leads nowhere. A tree says what stands
where; a walk through it ends at a place or at the fault of its first bad step.
-/

namespace StakingLedger

/-- Why a file cannot be read. -/
inductive FileFault where
  | absent
  /-- The path goes on after a file. -/
  | notDirectory
  | directory
  | nameTooLong
  /-- The file holds a database. -/
  | binary
  deriving DecidableEq

def FileFault.message : FileFault → String
  | .absent => "No such file or directory (os error 2)"
  | .notDirectory => "Not a directory (os error 20)"
  | .directory => "Is a directory (os error 21)"
  | .nameTooLong => "File name too long (os error 36)"
  | .binary => "stream did not contain valid UTF-8"

/-- Where the names of a place are counted from. -/
inductive PlaceBase where
  | root
  /-- So many levels above the working directory. -/
  | above (levels : Nat)
  deriving DecidableEq

/-- A place in the file system: names that lead down from its base. -/
structure Place where
  base : PlaceBase
  names : List String
  deriving DecidableEq

namespace Place

/-- Where the walk along a path begins. -/
def start (path : String) : Place :=
  ⟨if path.toList.head? = some '/' then .root else .above 0, []⟩

/-- The place one level up; above the root is the root. -/
def parent (p : Place) : Place :=
  match p.names, p.base with
  | [], .root => p
  | [], .above levels => ⟨.above (levels + 1), []⟩
  | _ :: _, _ => { p with names := p.names.dropLast }

/-- The place of a name below. -/
def child (p : Place) (name : String) : Place := { p with names := p.names ++ [name] }

/-- The shortest path to a place. -/
def text (p : Place) : String :=
  match p.base with
  | .root => "/" ++ "/".intercalate p.names
  | .above levels => "/".intercalate (List.replicate levels ".." ++ p.names)

/-- Whether a name in a path leads nowhere else. -/
def isStay (name : String) : Bool := name = "" ∨ name = "."

/-- The place that a path names, whatever stands on the way. -/
def ofPath (path : String) : Place :=
  (path.splitOn "/").foldl
    (fun p name => if isStay name then p else if name = ".." then p.parent else p.child name)
    (start path)

/-- The names that stand at the root of every system; they are directories. -/
def rootDirectories : List String :=
  ["bin", "boot", "dev", "etc", "home", "lib", "media", "mnt", "opt", "proc", "root", "run",
    "sbin", "srv", "sys", "tmp", "usr", "var"]

/-- Whether a place is a directory wherever a command is run. -/
def isKnownDirectory (p : Place) : Bool :=
  match p.base, p.names with
  | _, [] => true
  | .root, [name] => rootDirectories.contains name
  | _, _ => false

end Place

/-- What stands where. -/
structure FileTree where
  isFile : Place → Bool
  isDirectory : Place → Bool

namespace FileTree

/-- The greatest number of bytes in a name. -/
def maxNameBytes : Nat := 255

/-- The greatest number of bytes in a path. -/
def maxPathBytes : Nat := 4095

/-- One step of a walk. -/
def step (t : FileTree) (p : Place) (name : String) : Except FileFault Place :=
  if t.isFile p then .error .notDirectory
  else if Place.isStay name then .ok p
  else if name = ".." then .ok p.parent
  else if maxNameBytes < name.utf8ByteSize then .error .nameTooLong
  else if t.isFile (p.child name) ∨ t.isDirectory (p.child name) then .ok (p.child name)
  else .error .absent

/-- Walks along a path. -/
def locate (t : FileTree) (path : String) : Except FileFault Place :=
  if path = "" then .error .absent
  else if maxPathBytes < path.utf8ByteSize then .error .nameTooLong
  else (path.splitOn "/").foldlM t.step (Place.start path)

end FileTree

end StakingLedger
