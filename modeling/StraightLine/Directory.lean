set_option autoImplicit false

namespace StraightLine

inductive ReadFault where
  | missing
  | notDirectory
  | directory
  | tooLong
  | notText
  | other (reason : String)
  deriving DecidableEq

def ReadFault.reason : ReadFault → String
  | missing => "No such file or directory (os error 2)"
  | notDirectory => "Not a directory (os error 20)"
  | directory => "Is a directory (os error 21)"
  | tooLong => "File name too long (os error 36)"
  | notText => "stream did not contain valid UTF-8"
  | other reason => reason

def decodeText (content : ByteArray) : Except ReadFault String :=
  match String.fromUTF8? content with
  | some text => .ok text
  | none => .error .notText

/-- A directory that holds files and no directories. Of two files of one name the later one counts.
Other directories are known to be there and to hold none of the files. -/
structure Directory where
  files : List (String × ByteArray)

namespace Directory

inductive Place where
  | here
  | elsewhere
  | file (content : ByteArray)

def maxName : Nat :=
  255

def maxPath : Nat :=
  4095

def lookup (d : Directory) (name : String) : Except ReadFault Place :=
  match d.files.reverse.lookup name with
  | some content => .ok (.file content)
  | none => .error .missing

/-- Follows one part of a path. An empty part and a dot stay in a directory and two dots leave it
upwards; nothing leads on from a file, not even an empty part. -/
def step (d : Directory) (place : Place) (part : String) : Except ReadFault Place :=
  match place with
  | .file _ => .error .notDirectory
  | _ =>
    if part = "" ∨ part = "." then .ok place
    else if part = ".." then .ok .elsewhere
    else if maxName < part.utf8ByteSize then .error .tooLong
    else match place with
      | .here => d.lookup part
      | _ => .error .missing

def follow (d : Directory) (path : String) : Except ReadFault Place :=
  if path.isEmpty then .error .missing
  else if maxPath < path.utf8ByteSize then .error .tooLong
  else
    let start := if path.front? = some '/' then Place.elsewhere else Place.here
    (path.splitOn "/").foldlM d.step start

def read (d : Directory) (path : String) : Except ReadFault String :=
  match d.follow path with
  | .ok (.file content) => decodeText content
  | .ok _ => .error .directory
  | .error fault => .error fault

end Directory

end StraightLine
