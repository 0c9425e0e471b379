import BlockLang.Program.Library
import BlockLang.Program.Path

/-!
# Files as a library

A tree of files, seen from the directory it hangs in. Directories that a file lies
in need no entry of their own. Nothing outside the tree exists.
-/

namespace BlockLang

/-- Where a module is looked for. -/
def modulePath (directory name : String) : String := Path.join directory (name ++ fileExtension)

inductive FileEntry where
  | file (content : ByteArray)
  | directory
deriving Inhabited

structure FileTree where
  entries : List (List String × FileEntry)
deriving Inhabited

namespace FileTree

/-- The longest name of a file or directory, in bytes. -/
def longestName : Nat := 255

/-- The longest path, in bytes. -/
def longestPath : Nat := 4095

/-- A tree with an entry for each path. -/
def ofList (files : List (String × FileEntry)) : FileTree :=
  ⟨files.map fun (path, entry) => ((Path.parts path).filter (!Path.isIdle ·), entry)⟩

/-- What lies at a place, given by the names on the way there. -/
def at? (t : FileTree) (place : List String) : Option FileEntry :=
  match t.entries.lookup place with
  | some entry => some entry
  | none => if t.entries.any fun (other, _) => place.isPrefixOf other then some .directory else none

/-- What a path leads to. -/
inductive Reading where
  | file (content : ByteArray)
  | missing
  /-- A directory, or a path that cannot be followed. -/
  | refused
deriving Inhabited

/-- Follows the parts of a path from the directory at `place`. -/
def follow (t : FileTree) (place : List String) : List String → Reading
  | [] => .refused
  | part :: parts =>
    if Path.isIdle part then follow t place parts
    else if part == ".." then
      if place.isEmpty then .missing else follow t place.dropLast parts
    else if longestName < part.utf8ByteSize then .refused
    else
      match t.at? (place ++ [part]), parts with
      | none, _ => .missing
      | some (.file content), [] => .file content
      | some (.file _), _ => .refused
      | some .directory, _ => follow t (place ++ [part]) parts

/-- Reads the file at a path. -/
def read (t : FileTree) (path : String) : Reading :=
  if longestPath < path.utf8ByteSize || path.contains '\x00' then .refused
  else if Path.isAbsolute path then .missing
  else t.follow [] (Path.parts path)

/-- The module `name` as a file of `directory`. -/
def find (t : FileTree) (directory name : String) : Found :=
  let path := modulePath directory name
  match t.read path with
  | .missing => .missing
  | .refused => .unreadable path
  | .file content =>
    match String.fromUTF8? content with
    | some text => .text path text
    | none => .unreadable path

/-- The files of one directory as a library. -/
def library (t : FileTree) (directory : String) : Library :=
  ⟨t.find directory, t.entries.length⟩

end FileTree
end BlockLang
