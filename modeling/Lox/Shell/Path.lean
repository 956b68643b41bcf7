import Lox.Text.Bytes

/-!
File names. Two names that differ only in empty, `.` and `..` parts stand for the same place.
-/

namespace Lox.Path

def separator : UInt8 := 47

/-- Drops empty and `.` parts, and a part in front of each `..`. -/
def reduce (parts : List Bytes) : List Bytes :=
  (parts.foldl (fun reduced part =>
    if part = [] ∨ part = [46] then reduced
    else if part = [46, 46] then reduced.tail
    else part :: reduced) []).reverse

def isAbsolute (path : Bytes) : Bool :=
  path.head? == some separator

/-- The absolute name of a place. -/
def clean (path : Bytes) : Bytes :=
  separator :: Bytes.joined [separator] (reduce (Bytes.splitOn separator path))

/-- A place below a directory. -/
def within (dir name : Bytes) : Bytes :=
  clean (dir ++ separator :: name)

/-- The absolute name of a place, where relative names start in `dir`. -/
def absolute (dir path : Bytes) : Bytes :=
  if isAbsolute path then clean path else within dir path

end Lox.Path

namespace Lox

/-- Why a file cannot be read. -/
inductive ReadError.Reason where
  | missing
  | directory
  | notDirectory
  | nameTooLong
  | invalidName
  deriving DecidableEq, Repr

structure ReadError where
  path : Bytes
  reason : ReadError.Reason
  deriving DecidableEq, Repr

def ReadError.message (e : ReadError) : Bytes :=
  match e.reason with
  | .missing => bytes "open " ++ e.path ++ bytes ": no such file or directory"
  | .directory => bytes "read " ++ e.path ++ bytes ": is a directory"
  | .notDirectory => bytes "open " ++ e.path ++ bytes ": not a directory"
  | .nameTooLong => bytes "open " ++ e.path ++ bytes ": file name too long"
  | .invalidName => bytes "open " ++ e.path ++ bytes ": invalid argument"

/-- How files are read. -/
abbrev Reader := Bytes → Except ReadError Bytes

end Lox
