/-!
# Workspaces

The files that a run can see, by their paths. `Workspace.ofFiles` is a directory
that holds exactly the given files; of what lies outside of it, it knows only
that there are directories above.
-/

namespace Requirements

/-- The files that a run can see. -/
structure Workspace where
  isFile : String → Bool
  /-- The text of a file, or why there is none. -/
  read : String → Except String String

namespace Workspace

inductive Place where
  | file (text : String)
  /-- A directory of the workspace, by the names on the way to it. -/
  | directory (names : List (List Char))
  /-- A directory outside of the workspace. -/
  | outside

def parts (path : String) : List (List Char) :=
  path.toList.splitOnP (· == '/')

/-- Whether a part of a path stays in place. -/
def stays (part : List Char) : Bool :=
  part.isEmpty || part == ['.']

/-- The names on the path of a file. -/
def fileNames (path : String) : List (List Char) :=
  (parts path).filter fun part => !stays part

def above : List (List Char) → Place
  | [] => .outside
  | name :: names => .directory (name :: names).dropLast

def lookUp? (files : List (String × String)) (names : List (List Char)) : Option Place :=
  match files.find? fun f => fileNames f.1 == names with
  | some f => some (.file f.2)
  | none =>
      if files.any fun f => names.isPrefixOf (fileNames f.1) then some (.directory names)
      else none

/-- Go one part of a path further, or say why that is not possible. -/
def enter (files : List (String × String)) (place : Place) (part : List Char) :
    Except String Place :=
  match place with
  | .file _ => .error "Not a directory (os error 20)"
  | .outside =>
      if stays part || part == ['.', '.'] then .ok .outside
      else .error "No such file or directory (os error 2)"
  | .directory names =>
      if stays part then .ok place
      else if part == ['.', '.'] then .ok (above names)
      else
        match lookUp? files (names ++ [part]) with
        | some place => .ok place
        | none => .error "No such file or directory (os error 2)"

/-- What a path leads to. A path that starts with a slash starts outside. -/
def follow (files : List (String × String)) (path : String) : Except String Place :=
  match parts path with
  | [[]] => .error "No such file or directory (os error 2)"
  | [] :: rest => rest.foldlM (enter files) .outside
  | all => all.foldlM (enter files) (.directory [])

/-- The text of the file that a path leads to, or why it cannot be read. -/
def readFrom (files : List (String × String)) (path : String) : Except String String := do
  match ← follow files path with
  | .file text => return text
  | .directory _ | .outside => throw "Is a directory (os error 21)"

/-- A directory that holds exactly the given files. -/
def ofFiles (files : List (String × String)) : Workspace where
  isFile path := (readFrom files path).toBool
  read := readFrom files

end Workspace

end Requirements
