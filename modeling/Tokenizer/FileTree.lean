import Tokenizer.Path

/-!
Files in memory. A tree holds the files below a working directory; `read` finds a file by its path
or says why it cannot be read.
-/
namespace Tokenizer

/-- Why a file could not be read. -/
inductive ReadError where
  | notFound
  | permissionDenied
  /-- Any other reason, in the words of the file system. -/
  | other (detail : String)
deriving DecidableEq, Repr

namespace ReadError

/-- A name in the middle of the path, or before a final slash, belongs to a file. -/
def notDirectory : ReadError := .other "Not a directory (os error 20)"

def isDirectory : ReadError := .other "Is a directory (os error 21)"

def nameTooLong : ReadError := .other "File name too long (os error 36)"

/-- No path holds the zero character. -/
def zeroCharacter : ReadError := .other "file name contained an unexpected NUL byte"

end ReadError

/-- What a name in a directory stands for. -/
inductive Entry where
  | file (bytes : List UInt8)
  | directory
deriving DecidableEq, Repr

/-- Entries by the names that lead to them. The directories on the way are there as well. -/
structure FileTree where
  entries : List (List String × Entry)
deriving DecidableEq, Repr

namespace FileTree

/-- Greatest number of bytes in a name. -/
def maxName : Nat := 255

/-- Number of bytes that no path reaches. -/
def pathLimit : Nat := 4096

/-- A place in the tree, or outside of it. -/
inductive Place where
  | inside (names : List String) (entry : Entry)
  /-- A directory outside the tree, of whose contents nothing is known. -/
  | outside
deriving DecidableEq, Repr

def home : Place := .inside [] .directory

/-- What the names lead to. Of several entries for the same names the last one counts. -/
def find? (t : FileTree) (names : List String) : Option Entry :=
  match t.entries.reverse.find? (·.1 == names) with
  | some (_, entry) => some entry
  | none => if t.entries.any fun e => names.isPrefixOf e.1 then some .directory else none

def walk (t : FileTree) (place : Place) (part : String) : Except ReadError Place :=
  match place with
  | .inside _ (.file _) => .error .notDirectory
  | .inside names .directory =>
    if part == "" || part == "." then .ok place
    else if part == ".." then
      .ok (if names.isEmpty then .outside else .inside names.dropLast .directory)
    else if maxName < part.utf8ByteSize then .error .nameTooLong
    else
      match t.find? (names ++ [part]) with
      | some entry => .ok (.inside (names ++ [part]) entry)
      | none => .error .notFound
  | .outside =>
    if part == "" || part == "." || part == ".." then .ok .outside
    else if maxName < part.utf8ByteSize then .error .nameTooLong
    else .error .notFound

def resolve (t : FileTree) (path : String) : Except ReadError Place :=
  if path.toList.contains '\x00' then .error .zeroCharacter
  else if path.isEmpty then .error .notFound
  else if pathLimit ≤ path.utf8ByteSize then .error .nameTooLong
  else
    let start := if path.toList.head? == some '/' then .outside else home
    (Path.parts path).foldlM t.walk start

def read (t : FileTree) (path : String) : Except ReadError (List UInt8) := do
  match ← t.resolve path with
  | .inside _ (.file bytes) => .ok bytes
  | _ => .error .isDirectory

end FileTree
end Tokenizer
