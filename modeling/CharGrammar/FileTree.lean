import CharGrammar.RuleFile.Fault

namespace CharGrammar

/-- A place in a tree, as the names on the way to it from the root. -/
abbrev Place := List (List Char)

/-- The files of a tree, and the folder where a path without a leading slash begins. -/
structure FileTree where
  home : Place
  files : List (Place × List UInt8)

namespace FileTree

/-- A folder is there because a file or the home folder is in it. -/
def isFolder (t : FileTree) (place : Place) : Bool :=
  place.isPrefixOf t.home ||
    t.files.any fun (file, _) => place.isPrefixOf file && place ≠ file

/-- The place that a name leads to, if it is there or not. The root is its own parent. -/
def neighbour (place : Place) (name : List Char) : Place :=
  if name = [] ∨ name = ['.'] then place
  else if name = ['.', '.'] then place.dropLast
  else place ++ [name]

/-- Goes one name further. There is no way on from a file. -/
def step (t : FileTree) (place : Place) (name : List Char) : Except FileFault Place :=
  let next := neighbour place name
  if !t.isFolder place then .error .notFolder
  else if 255 < (String.ofList name).utf8ByteSize then .error .nameTooLong
  else if t.isFolder next || (t.files.lookup next).isSome then .ok next
  else .error .missing

/-- Where a path begins, and the names in it. -/
def route (home : Place) (path : String) : Place × List (List Char) :=
  (if path.toList.head? = some '/' then [] else home, path.toList.splitOn '/')

/-- The bytes of the file that a path leads to. A slash at its end asks for a folder. A folder is
told of once: it can be opened, but no line of it can be read, so a reader that went on to the next
line would not come to an end. -/
def read (t : FileTree) (path : String) : Except FileFault (List UInt8) := do
  if path.toList.contains '\x00' then throw .zeroInName
  if path.isEmpty then throw .missing
  if 4095 < path.utf8ByteSize then throw .nameTooLong
  let (start, names) := route t.home path
  let place ← names.foldlM t.step start
  match t.files.lookup place with
  | some bytes => return bytes
  | none => throw .isFolder

/-- A tree that has the named files and, besides them, only the empty device. Of files at one
place the last counts. -/
def ofFiles (files : List (String × List UInt8)) : FileTree :=
  let home := ["tmp".toList, "work".toList]
  let placed := files.map fun (name, bytes) =>
    let (start, names) := route home name
    (names.foldl neighbour start, bytes)
  { home, files := (["dev".toList, "null".toList], []) :: placed.reverse }

end FileTree

end CharGrammar
