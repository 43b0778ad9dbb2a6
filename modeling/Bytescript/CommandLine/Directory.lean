/-
A working directory kept in memory.

Commands can be carried out on it instead of a real one. It holds files, each under the path that
leads to it; a directory exists where some file lies in it. Little is known of what lies outside:
the directories above the working directory, the root, the devices' and the temporary directory,
the null device, and what commands have written there.
-/
import Bytescript.CommandLine.Command

namespace Bytescript.CommandLine

/-! ### Places -/

/-- Where a path leads, from the working directory or from the root. -/
structure Place where
  rooted : Bool := false
  /-- The parts of the way, last part first. -/
  parts : List String := []
  deriving DecidableEq, Repr

namespace Place

/-- The path of a place, without detours. -/
def path (place : Place) : String :=
  (if place.rooted then "/" else "") ++ "/".intercalate place.parts.reverse

/-- The directory above. A way that leaves the working directory starts with steps upwards; the
root has nothing above it. -/
def up (place : Place) : Place :=
  match place.parts with
  | [] => if place.rooted then place else { place with parts := [".."] }
  | ".." :: rest => { place with parts := ".." :: ".." :: rest }
  | _ :: rest => { place with parts := rest }

/-- The place of a name in the directory. -/
def down (place : Place) (name : String) : Place :=
  { place with parts := name :: place.parts }

/-- The working directory, those above it, the root and the two directories that stand below every
root. -/
def isKnownDirectory (place : Place) : Bool :=
  if place.rooted then place.parts ∈ [[], ["dev"], ["tmp"]] else place.parts.all (· = "..")

/-- The null device: a file that is always empty, whatever is written to it. -/
def isNull (place : Place) : Bool :=
  place = ⟨true, ["null", "dev"]⟩

/-- The longest name, in bytes. -/
def maxName : Nat := 255

/-- The longest path, in bytes. -/
def maxPath : Nat := 4095

end Place

/-! ### Directories -/

/-- Files, each with its path and content. -/
abbrev Directory := List (String × List UInt8)

namespace Directory

/-- The content of the file at a place. -/
def find? (directory : Directory) (place : Place) : Option (List UInt8) :=
  if place.isNull then some [] else directory.lookup place.path

/-- Is there a directory at a place? -/
def isDirectory (directory : Directory) (place : Place) : Bool :=
  place.isKnownDirectory || directory.any fun file => (place.path ++ "/").isPrefixOf file.1

/-- Puts a file at a path, in place of the one that was there. -/
def put (directory : Directory) (path : String) (content : List UInt8) : Directory :=
  (path, content) :: directory.filter fun file => file.1 ≠ path

/-- Follows the parts of a path from a place. Every place but the last has to be a directory. -/
def follow (directory : Directory) : List String → Place → Except FileError Place
  | [], place => .ok place
  | part :: rest, place =>
    if (directory.find? place).isSome then .error .notADirectory
    else if !directory.isDirectory place then .error .notFound
    else if part = "" ∨ part = "." then directory.follow rest place
    else if part = ".." then directory.follow rest place.up
    else if Place.maxName < part.utf8ByteSize then .error .nameTooLong
    else directory.follow rest (place.down part)

/-- Follows the parts of a path from where the path starts. -/
def locate (directory : Directory) (path : String) (parts : List String) :
    Except FileError Place :=
  if path = "" then .error .notFound
  else if Place.maxPath < path.utf8ByteSize then .error .nameTooLong
  else directory.follow parts { rooted := path.startsWith "/" }

/-- Reads a file. -/
def read (directory : Directory) (path : String) : Except FileError (List UInt8) := do
  let place ← directory.locate path (path.splitOn "/")
  if directory.isDirectory place then throw .isADirectory
  match directory.find? place with
  | some content => return content
  | none => throw .notFound

/-- Writes a file in a directory that exists. A path that ends with a slash leads to a directory,
whether there is one or not. -/
def write (directory : Directory) (path : String) (content : List UInt8) :
    Except FileError Directory := do
  let parts := (path.splitOn "/").reverse.dropWhile (· = "") |>.reverse
  let place ← directory.locate path parts
  if path.endsWith "/" ∨ directory.isDirectory place then throw .isADirectory
  if place.isNull then return directory
  return directory.put place.path content

/-- The files in the working directory and below it. -/
def inner (directory : Directory) : Directory :=
  directory.filter fun file => !file.1.startsWith "/" && !file.1.startsWith "../"

end Directory

/-- Carries out a command on a directory kept in memory. -/
def Interaction.runIn : Directory → Interaction → Response × Directory
  | directory, .done response => (response, directory)
  | directory, .read path next => (next (directory.read path)).runIn directory
  | directory, .write path content next =>
    match directory.write path content with
    | .ok changed => (next (.ok ())).runIn changed
    | .error e => (next (.error e)).runIn directory

end Bytescript.CommandLine
