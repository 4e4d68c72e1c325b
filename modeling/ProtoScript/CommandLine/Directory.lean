/-!
# Files by name

The files of a directory, and what a file name leads to from there.  A name is followed part by
part, where slashes separate the parts.
-/

namespace ProtoScript.CommandLine

inductive ReadFault where
  | absent
  | notDirectory
  | isDirectory
  | nameTooLong
  | forbidden
  | notText
  | other (description : String)
  deriving DecidableEq, Inhabited, Repr

def ReadFault.message : ReadFault → String
  | absent => "No such file or directory (os error 2)"
  | notDirectory => "Not a directory (os error 20)"
  | isDirectory => "Is a directory (os error 21)"
  | nameTooLong => "File name too long (os error 36)"
  | forbidden => "Permission denied (os error 13)"
  | notText => "stream did not contain valid UTF-8"
  | other description => description

/-- A directory of texts.  Each file stands with its path, which names the directories that lead to
it and then the file. -/
structure Directory where
  files : List (List String × String)
  deriving DecidableEq, Inhabited, Repr

inductive Place where
  | folder (path : List String)
  | file (content : String)
  | outside
  deriving DecidableEq, Inhabited, Repr

namespace Directory

def parts (name : String) : List String := name.splitOn "/"

def stays (part : String) : Bool := part == "" || part == "."

def ofFiles (files : List (String × String)) : Directory :=
  ⟨files.map fun (name, content) => ((parts name).filter fun part => !stays part, content)⟩

def place? (d : Directory) (path : List String) : Option Place :=
  match d.files.find? fun entry => entry.1 == path with
  | some entry => some (.file entry.2)
  | none => if d.files.any fun entry => path.isPrefixOf entry.1 then some (.folder path) else none

def partLimit : Nat := 255

def nameLimit : Nat := 4095

def follow (d : Directory) (place : Place) (part : String) : Except ReadFault Place :=
  match place with
  | .file _ => .error .notDirectory
  | .folder path =>
    if stays part then .ok place
    else if part = ".." then .ok (if path.isEmpty then .outside else .folder path.dropLast)
    else if partLimit < part.utf8ByteSize then .error .nameTooLong
    else
      match d.place? (path ++ [part]) with
      | some found => .ok found
      | none => .error .absent
  | .outside =>
    if stays part || part == ".." then .ok .outside
    else if partLimit < part.utf8ByteSize then .error .nameTooLong
    else .error .absent

/-- Where following a name begins: a slash in front leads away from the directory. -/
def start (name : String) : Place :=
  if name.toList.head? = some '/' then .outside else .folder []

/-- Reads the file that a name leads to.  The null device is empty wherever the directory is. -/
def read (d : Directory) (name : String) : Except ReadFault String :=
  if name = "/dev/null" then .ok ""
  else if name = "" then .error .absent
  else if nameLimit < name.utf8ByteSize then .error .nameTooLong
  else
    match (parts name).foldlM d.follow (start name) with
    | .ok (.file content) => .ok content
    | .ok _ => .error .isDirectory
    | .error fault => .error fault

end Directory

end ProtoScript.CommandLine
