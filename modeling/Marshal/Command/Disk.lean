import Marshal.Table

/-!
# Files

What the generator needs of a file system: to read a file, to create a directory with those around
it, and to write a file. A file tree in memory offers the same.
-/

namespace Marshal.Command

/-- Why a file operation fails. -/
inductive DiskFault where
  | notFound
  | exists
  | notDirectory
  | isDirectory
  | notText
  | other (message : String)
deriving DecidableEq, Repr

/-- The wording of a file fault. -/
def DiskFault.message : DiskFault → String
  | .notFound => "No such file or directory (os error 2)"
  | .exists => "File exists (os error 17)"
  | .notDirectory => "Not a directory (os error 20)"
  | .isDirectory => "Is a directory (os error 21)"
  | .notText => "stream did not contain valid UTF-8"
  | .other s => s

/-- A file system. -/
class Disk (m : Type → Type) where
  /-- The bytes of a file. -/
  read : String → m (Except DiskFault (List UInt8))
  /-- Creates a directory and those around it, unless they are there. -/
  createAll : String → m (Except DiskFault Unit)
  /-- Writes a text to a file. -/
  write : String → String → m (Except DiskFault Unit)

/-! ## Paths -/

/-- The segments of a path between its slashes. -/
def segments (path : String) : List String := (path.toList.splitOn '/').map String.ofList

/-- Whether a path starts at the root. -/
def isAbsolute (path : String) : Bool := path.toList.head? = some '/'

/-- The path of a file in a directory. -/
def filePath (dir name : String) : String :=
  if dir.isEmpty || dir.toList.getLast? = some '/' then dir ++ name else dir ++ "/" ++ name

/-- Drops the segments at the end, given in reverse, that do not move; the first one stays. -/
def dropIdle : List String → List String
  | [] => []
  | [first] => [first]
  | s :: rest => if s = "" ∨ s = "." then dropIdle rest else s :: rest

/-- The directory of a file that is put into `dir`, without needless segments at its end. -/
def directoryOf (dir : String) : String :=
  let kept := (dropIdle (segments dir).reverse).reverse
  if kept = [""] ∧ isAbsolute dir then "/" else "/".intercalate kept

/-! ## File trees -/

/-- What stands at a place of a file tree. -/
inductive Node where
  | file (bytes : List UInt8)
  | directory
deriving DecidableEq, Repr

/-- A file tree: what stands below its root, and the place where relative paths start. -/
structure FileTree where
  nodes : Table (List String) Node
  current : List String
deriving DecidableEq, Repr

namespace FileTree

/-- What stands at a place. The root is always a directory. -/
def node? (t : FileTree) (place : List String) : Option Node :=
  if place = [] then some .directory else Table.find? t.nodes place

/-- Puts something at a place. -/
def put (t : FileTree) (place : List String) (n : Node) : FileTree :=
  { t with nodes := Table.insert t.nodes place n }

/-- Whether a place is a directory. -/
def isDirectory (t : FileTree) (place : List String) : Bool := t.node? place == some .directory

/-- The place that segments lead to. Every segment must stand in a directory. -/
def walk (t : FileTree) : List String → List String → Except DiskFault (List String)
  | place, [] => .ok place
  | place, s :: rest =>
    match t.node? place with
    | none => .error .notFound
    | some (.file _) => .error .notDirectory
    | some .directory =>
      if s = "" ∨ s = "." then walk t place rest
      else if s = ".." then walk t place.dropLast rest
      else walk t (place ++ [s]) rest

/-- The place where a path starts. -/
def origin (t : FileTree) (path : String) : List String :=
  if isAbsolute path then [] else t.current

/-- The place of a path. -/
def place (t : FileTree) (path : String) : Except DiskFault (List String) :=
  if path.isEmpty then .error .notFound else t.walk (t.origin path) (segments path)

/-- The bytes of a file. -/
def read (t : FileTree) (path : String) : Except DiskFault (List UInt8) := do
  match t.node? (← t.place path) with
  | none => throw .notFound
  | some .directory => throw .isDirectory
  | some (.file bytes) => return bytes

/-- The tree with a file in it. -/
def write (t : FileTree) (path : String) (bytes : List UInt8) : Except DiskFault FileTree := do
  let place ← t.place path
  if t.isDirectory place then throw .isDirectory else return t.put place (.file bytes)

/-- The tree with a directory in it that was not there. -/
def create (t : FileTree) (origin path : List String) : Except DiskFault FileTree := do
  let place ← t.walk origin path
  if (t.node? place).isSome then throw .exists else return t.put place .directory

/-- The tree with a directory in it, which may have been there. -/
def ensure (t : FileTree) (origin path : List String) : Except DiskFault FileTree :=
  match t.create origin path with
  | .ok t => .ok t
  | .error e =>
    match t.walk origin path with
    | .ok place => if t.isDirectory place then .ok t else .error e
    | .error _ => .error e

/-- The tree with a directory, given by its segments in reverse, and those around it. -/
def createAll (t : FileTree) (origin : List String) : List String → Except DiskFault FileTree
  | [] => .ok t
  | s :: outer =>
    match t.ensure origin (s :: outer).reverse with
    | .error .notFound => do (← createAll t origin outer).ensure origin (s :: outer).reverse
    | r => r

/-- The tree in which some files stand below the current directory. -/
def ofFiles (files : List (String × List UInt8)) : FileTree :=
  let start : FileTree := ⟨[(["work"], .directory)], ["work"]⟩
  files.foldl (fun t f =>
    let place := t.current ++ segments f.1
    let outer := ((List.range place.length).map place.take).filter fun p => p ≠ []
    (outer.foldl (fun t p => t.put p .directory) t).put place (.file f.2)) start

/-- The files below the current directory, by their paths. -/
def files (t : FileTree) : List (String × List UInt8) :=
  t.nodes.filterMap fun n =>
    match n.2 with
    | .file bytes =>
      if t.current.isPrefixOf n.1 then
        some ("/".intercalate (n.1.drop t.current.length), bytes)
      else none
    | .directory => none

end FileTree

/-- A change that may fail as a step of a state; a failure changes nothing. -/
def change (f : FileTree → Except DiskFault FileTree) : StateM FileTree (Except DiskFault Unit) :=
  fun t =>
    match f t with
    | .ok t => (.ok (), t)
    | .error e => (.error e, t)

instance : Disk (StateM FileTree) where
  read path := fun t => (t.read path, t)
  createAll path := change fun t =>
    t.createAll (t.origin path) ((segments path).filter fun s => s ≠ "" ∧ s ≠ ".").reverse
  write path text := change fun t => t.write path text.toUTF8.toList

end Marshal.Command
