/-!
# Directories

A flat directory of text files, and what reading a path that starts there gives.
A path is walked part by part.  Above the directory nothing is known but that
there are further directories up to the root, and at the root those that every
system has.
-/

namespace ShaderIR.CommandLine

/-- The files of a directory by name. -/
abbrev Directory := List (String × String)

/-- Reading a path: the text of the file, or why there is none. -/
abbrev Files := String → Except String String

/-- Where a path leads. -/
inductive Place where
  /-- The directory where relative paths start. -/
  | start
  /-- A directory above the one where relative paths start. -/
  | above
  | root
  /-- A directory at the root. -/
  | system (name : String)
  | file (text : String)
  deriving DecidableEq, Repr

/-- Why a path leads nowhere, or to nothing that has a text. -/
inductive PathError where
  | invalid
  | tooLong
  | missing
  | notDirectory
  | isDirectory
  deriving DecidableEq, Repr

/-- The text of a path error. -/
def PathError.message (path : String) : PathError → String
  | invalid => "open " ++ path ++ ": invalid argument"
  | tooLong => "open " ++ path ++ ": file name too long"
  | missing => "open " ++ path ++ ": no such file or directory"
  | notDirectory => "open " ++ path ++ ": not a directory"
  | isDirectory => "read " ++ path ++ ": is a directory"

/-- The directories at the root of every system. -/
def systemDirectories : List String :=
  ["bin", "dev", "etc", "home", "lib", "media", "mnt", "opt", "proc", "root", "run", "sbin", "srv",
    "sys", "tmp", "usr", "var"]

/-- The largest number of bytes of a name. -/
def nameLimit : Nat := 255

/-- The largest number of bytes of a path. -/
def pathLimit : Nat := 4095

/-- Go on from a place by one part of a path; an empty part stays in its directory. -/
def Directory.step (directory : Directory) (place : Place) (part : String) :
    Except PathError Place :=
  match place with
  | .file _ => .error .notDirectory
  | place =>
    if part = "" ∨ part = "." then .ok place
    else if part = ".." then
      match place with
      | .start | .above => .ok .above
      | _ => .ok .root
    else if nameLimit < part.utf8ByteSize then .error .tooLong
    else
      match place with
      | .start =>
        match directory.lookup part with
        | some text => .ok (.file text)
        | none => .error .missing
      | .root => if systemDirectories.contains part then .ok (.system part) else .error .missing
      | .system name =>
        if name = "dev" ∧ part = "null" then .ok (.file "") else .error .missing
      | _ => .error .missing

/-- Walk a path. -/
def Directory.walk (directory : Directory) (path : String) : Except PathError Place :=
  if path.contains '\x00' then .error .invalid
  else if path = "" then .error .missing
  else if pathLimit < path.utf8ByteSize then .error .tooLong
  else
    (path.splitOn "/").foldlM directory.step (if path.startsWith "/" then .root else .start)

/-- Read a path relative to a directory. -/
def Directory.read (directory : Directory) : Files := fun path =>
  match directory.walk path with
  | .ok (.file text) => .ok text
  | .ok _ => .error (PathError.isDirectory.message path)
  | .error error => .error (error.message path)

end ShaderIR.CommandLine
