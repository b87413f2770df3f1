set_option autoImplicit false
set_option relaxedAutoImplicit false

/-!
# Paths

A path leads to a file, to a directory, or nowhere, and there are several ways to lead nowhere. Here
it is followed from a directory that holds files and nothing else: a name leads to the file of that
name, one point stays in the directory, and two points leave it. No file is found outside.

## Main definitions

* `Packrat.Program.Target` — what a path leads to.
* `Packrat.Program.Directory` — a directory that holds files.
* `Packrat.Program.Directory.follow` — what a path leads to from there.
-/

namespace Packrat.Program

/-- What a path leads to. -/
inductive Target where
  | file (contents : ByteArray)
  | directory
  | nothing
  /-- The path goes on behind a file. -/
  | behindFile
  /-- A name in the path, or the whole path, is too long. -/
  | tooLong

/-- A directory that holds files and nothing else: names and contents in the order in which the
files were written. -/
structure Directory where
  files : List (String × ByteArray)

namespace Directory

/-- Where one stands on the way along a path. -/
inductive Standpoint where
  | inside
  | outside
  | file (contents : ByteArray)

/-- The file of the given name. What was written last counts. -/
def contents? (d : Directory) (name : String) : Option ByteArray := d.files.reverse.lookup name

/-- The greatest number of bytes in a name. -/
def longestName : Nat := 255

/-- The greatest number of bytes in a path. -/
def longestPath : Nat := 4095

/-- What is reached from a standpoint by the names in a path. -/
def walk (d : Directory) : Standpoint → List String → Target
  | .inside, [] | .outside, [] => .directory
  | .file contents, [] => .file contents
  | .file _, _ :: _ => .behindFile
  | .inside, name :: names =>
    if name = "" ∨ name = "." then d.walk .inside names
    else if name = ".." then d.walk .outside names
    else if longestName < name.utf8ByteSize then .tooLong
    else
      match d.contents? name with
      | some contents => d.walk (.file contents) names
      | none => .nothing
  | .outside, name :: names =>
    if name = "" ∨ name = "." ∨ name = ".." then d.walk .outside names
    else if longestName < name.utf8ByteSize then .tooLong
    else .nothing

/-- What a path leads to from a directory. A path that starts with a slash starts outside. -/
def follow (d : Directory) (path : String) : Target :=
  if path = "" then .nothing
  else if longestPath < path.utf8ByteSize then .tooLong
  else d.walk (if path.toList.head? = some '/' then .outside else .inside) (path.splitOn "/")

end Directory

end Packrat.Program
