/-
Files and directories as a value, and what a path among them leads to.

With them the program can be run without a system around it: what a path leads
to, or the fault that a system would report, is computed.  A path is followed
part by part.  Each part needs a directory to start from, also an empty part and
one of dots, so a path with a slash behind the name of a file leads nowhere.
-/

namespace ChainScript

/-- A file, or a directory.  Of several entries with one name the first
holds. -/
inductive FileNode where
  | file (content : ByteArray)
  | directory (entries : List (String × FileNode))
deriving Inhabited

/-- Why a path leads to no content.  The last two are known to systems that
have owners of files and links between them. -/
inductive PathFault where
  | missing
  | notDirectory
  | isDirectory
  | nameTooLong
  | denied
  | linkLoop
deriving Repr, DecidableEq

/-- The text of a failure of the system, which has a number. -/
def systemReason (description : String) (number : Nat) : String :=
  description ++ " (os error " ++ toString number ++ ")"

namespace PathFault

def all : List PathFault :=
  [.missing, .notDirectory, .isDirectory, .nameTooLong, .denied, .linkLoop]

def description : PathFault → String
  | .missing => "No such file or directory"
  | .notDirectory => "Not a directory"
  | .isDirectory => "Is a directory"
  | .nameTooLong => "File name too long"
  | .denied => "Permission denied"
  | .linkLoop => "Too many levels of symbolic links"

def number : PathFault → Nat
  | .missing => 2
  | .notDirectory => 20
  | .isDirectory => 21
  | .nameTooLong => 36
  | .denied => 13
  | .linkLoop => 40

def reason (fault : PathFault) : String :=
  systemReason fault.description fault.number

/-- The fault with a given number. -/
def ofNumber? (number : Nat) : Option PathFault :=
  all.find? fun fault => fault.number = number

end PathFault

/-- The parts of a path, which stand between its slashes. -/
def splitPath : List Char → List (List Char)
  | [] => [[]]
  | c :: rest =>
      if c = '/' then [] :: splitPath rest
      else
        match splitPath rest with
        | [] => [[c]]
        | part :: parts => (c :: part) :: parts

/-- The parts of a path as names. -/
def pathParts (path : String) : List String :=
  (splitPath path.toList).map String.ofList

namespace FileNode

/-- The entries of a directory; a file has none. -/
def entries : FileNode → List (String × FileNode)
  | .file _ => []
  | .directory entries => entries

/-- The node with a file at the end of some names.  Directories on the way are
made where there are none. -/
def write (content : ByteArray) : List String → FileNode → FileNode
  | [], _ => .file content
  | name :: rest, node =>
      let below := (node.entries.lookup name).getD (.directory [])
      .directory ((name, write content rest below) :: node.entries)

/-- The directory of some named files.  Of two files with one name the later
one holds. -/
def ofFiles (files : List (String × ByteArray)) : FileNode :=
  files.foldl (fun node file => node.write file.2 (pathParts file.1))
    (.directory [])

end FileNode

/-- A node and the directories around it, innermost first. -/
structure Place where
  node : FileNode
  above : List FileNode := []

namespace Place

/-- The longest name of a directory entry, in bytes. -/
def maxNameLength : Nat := 255

/-- The longest path, in bytes. -/
def maxPathLength : Nat := 4095

/-- The directory around a place; there is none around the root but itself. -/
def up (place : Place) : Place :=
  match place.above with
  | [] => place
  | outer :: others => ⟨outer, others⟩

/-- The outermost directory. -/
def root (place : Place) : Place :=
  ⟨place.above.getLastD place.node, []⟩

/-- Follow one part of a path. -/
def step (place : Place) (part : String) : Except PathFault Place :=
  match place.node with
  | .file _ => .error .notDirectory
  | .directory entries =>
      if part = "" ∨ part = "." then .ok place
      else if part = ".." then .ok place.up
      else if maxNameLength < part.utf8ByteSize then .error .nameTooLong
      else
        match entries.lookup part with
        | some node => .ok ⟨node, place.node :: place.above⟩
        | none => .error .missing

/-- Follow parts in order. -/
def follow (place : Place) : List String → Except PathFault Place
  | [] => .ok place
  | part :: rest =>
      match place.step part with
      | .ok next => next.follow rest
      | .error fault => .error fault

/-- The place that a path leads to.  A slash in front of it leads to the
root first. -/
def find (place : Place) (path : String) : Except PathFault Place :=
  if path = "" then .error .missing
  else if maxPathLength < path.utf8ByteSize then .error .nameTooLong
  else if path.toList.head? = some '/' then
    place.root.follow (pathParts path)
  else place.follow (pathParts path)

/-- The content of the file that a path leads to. -/
def read (place : Place) (path : String) : Except PathFault ByteArray :=
  match place.find path with
  | .error fault => .error fault
  | .ok ⟨.file content, _⟩ => .ok content
  | .ok ⟨.directory _, _⟩ => .error .isDirectory

/-- Directories that stand in the root of a system. -/
def rootNames : List String :=
  ["bin", "boot", "etc", "home", "lib", "media", "mnt", "opt", "proc", "root",
    "run", "sbin", "srv", "sys", "tmp", "usr", "var"]

/-- The root of a system with nothing but devices: an empty one, and standard
input. -/
def systemRoot (input : ByteArray) : FileNode :=
  .directory (
    ("dev", .directory [("null", .file .empty), ("stdin", .file input),
      ("fd", .directory [("0", .file input)])]) ::
    rootNames.map fun name => (name, .directory []))

/-- A working directory of some files, in a directory for temporary ones. -/
def workingDirectory (files : List (String × ByteArray)) (input : ByteArray) :
    Place :=
  ⟨.ofFiles files, [.directory [], systemRoot input]⟩

/-- The content of a script: that of the file that a path leads to, or standard
input if there is no path. -/
def script (place : Place) (input : ByteArray) :
    Option String → Except String ByteArray
  | some path => (place.read path).mapError PathFault.reason
  | none => .ok input

end Place

end ChainScript
