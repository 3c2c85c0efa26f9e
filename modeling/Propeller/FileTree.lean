import Propeller.Bytes

/-!
# Files

A path is a row of names with slashes between them.  It is followed name by name from a folder, the
root if it begins with a slash and the working folder if not; `.` and a missing name stay where they
are, `..` goes up, and the root is above itself.  All names but the last have to lead to folders
(`FileTree.enter`), and the last must not (`FileTree.locate`).  The first name that leads nowhere
decides how the path fails.
-/

namespace Propeller

/-- Why a file cannot be written. -/
inductive FileError
  /-- A folder on the way is not there. -/
  | missing
  /-- A file stands where a folder has to be. -/
  | notFolder
  /-- A folder stands where the file has to be, or only one could. -/
  | isFolder
  | nameTooLong
deriving DecidableEq, Inhabited

/-- The text of the failure, with its number. -/
def FileError.message : FileError → String
  | .missing     => "No such file or directory (os error 2)"
  | .notFolder   => "Not a directory (os error 20)"
  | .isFolder    => "Is a directory (os error 21)"
  | .nameTooLong => "File name too long (os error 36)"

/-- The longest name, in bytes. -/
def maxNameLength : Nat := 255

/-- The longest path, in bytes. -/
def maxPathLength : Nat := 4095

/-- Files and folders in memory, each under the names that lead to it from the root.  The working
folder is an empty one for temporary use. -/
structure FileTree where
  /-- The folders apart from the root. -/
  folders : List (List String) := [["dev"], ["tmp"], ["tmp", "work"]]
  /-- The files with their contents, the latest first. -/
  files : List (List String × Bytes) := [(["dev", "null"], [])]
  /-- The working folder. -/
  current : List String := ["tmp", "work"]
deriving Inhabited

namespace FileTree

/-- There is a folder. -/
def isFolder (s : FileTree) (place : List String) : Bool :=
  place.isEmpty || s.folders.contains place

/-- There is a file. -/
def isFile (s : FileTree) (place : List String) : Bool :=
  (List.lookup place s.files).isSome

/-- The folder that a name leads to from a folder. -/
def enter (s : FileTree) (here : List String) (name : String) :
    Except FileError (List String) :=
  let there := here ++ [name]
  if name = "" ∨ name = "." then .ok here
  else if name = ".." then .ok here.dropLast
  else if maxNameLength < (utf8Bytes name).length then .error .nameTooLong
  else if s.isFolder there then .ok there
  else if s.isFile there then .error .notFolder
  else .error .missing

/-- The place of a file with a name in a folder, whether it is there or not. -/
def fileIn (s : FileTree) (here : List String) (name : String) :
    Except FileError (List String) :=
  let there := here ++ [name]
  if name = "." ∨ name = ".." then .error .isFolder
  else if maxNameLength < (utf8Bytes name).length then .error .nameTooLong
  else if s.isFolder there then .error .isFolder
  else .ok there

/-- The place of a file that names lead to from a folder.  Only a folder can have a slash behind its
name. -/
def locateFrom (s : FileTree) (here : List String) : List String → Except FileError (List String)
  | []           => .error .isFolder
  | [name]       => s.fileIn here name
  | name :: rest =>
    if rest.all (·.isEmpty) then .error .isFolder
    else do s.locateFrom (← s.enter here name) rest

/-- The place of the file that a path means. -/
def locate (s : FileTree) (path : String) : Except FileError (List String) :=
  if path.isEmpty then .error .missing
  else if maxPathLength < (utf8Bytes path).length then .error .nameTooLong
  else s.locateFrom (if path.startsWith "/" then [] else s.current) (path.splitOn "/")

/-- The contents of a file of the working folder. -/
def read? (s : FileTree) (name : String) : Option Bytes :=
  List.lookup (s.current ++ [name]) s.files

/-- Write a file, in place of what it held before. -/
def write (path : String) (contents : Bytes) : StateM FileTree (Except String Unit) := do
  match (← get).locate path with
  | .error e  => return .error e.message
  | .ok place => do
    modify fun s => { s with files := (place, contents) :: s.files }
    return .ok ()

end FileTree

end Propeller
