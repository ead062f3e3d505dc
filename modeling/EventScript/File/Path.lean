/-!
# Paths

A path is a text in which slashes divide names. `join` resolves a path against a folder, `parent?`
gives the folder a path lies in, and `withExtension` replaces the end of the last name. Two
spellings are one path if their `components` agree.
-/

namespace EventScript.Path

/-- The path starts at the root of the file system. -/
def isAbsolute (path : String) : Bool :=
  path.toList.head? == some '/'

/-- The path `path` seen from the folder `folder`. -/
def join (folder path : String) : String :=
  if isAbsolute path || folder.isEmpty then path
  else if folder.toList.getLast? = some '/' then folder ++ path
  else folder ++ "/" ++ path

/-- The texts between the slashes of a path. -/
def split : List Char → List (List Char)
  | [] => [[]]
  | '/' :: rest => [] :: split rest
  | c :: rest =>
      match split rest with
      | [] => [[c]]
      | name :: more => (c :: name) :: more

/-- The path starts with the name of the current folder. -/
def startsHere (path : List Char) : Bool :=
  (split path).head? == some ['.']

/-- What identifies a path: whether it starts at the root, whether it starts with a dot, and its
names without empty ones and dots. -/
def components (path : String) : Bool × Bool × List (List Char) :=
  (isAbsolute path, startsHere path.toList,
    (split path.toList).filter fun name => name ≠ [] ∧ name ≠ ['.'])

/-- A path in reverse without the slashes and dots at its end. -/
def dropEmpty : List Char → List Char
  | '/' :: rest => dropEmpty rest
  | ['.'] => []
  | '.' :: '/' :: rest => dropEmpty rest
  | other => other

/-- The start of a path that stands in front of its names: a slash, or a dot for the current folder.
-/
def start (path : List Char) : List Char :=
  if path.head? = some '/' then ['/']
  else if startsHere path then ['.']
  else []

/-- The folder that a path lies in; the root and the empty path lie in none. -/
def parent? (path : String) : Option String :=
  let front := start path.toList
  let names := dropEmpty (path.toList.drop front.length).reverse
  match names with
  | [] => if front = ['.'] then some "" else none
  | names =>
      let outer := dropEmpty (names.dropWhile fun c => c ≠ '/')
      some (String.ofList (front ++ outer.reverse))

/-- The path with the text behind the last dot of its last name replaced. A dot that the name starts
with does not count; a name without any other gets one. If two dots are all that is left of the
name, they are the path of a folder, and a folder gets no extension. -/
def withExtension (path : String) (extension : String) : String :=
  let reversed := path.toList.reverse
  let name := reversed.takeWhile fun c => c ≠ '/'
  let folder := reversed.dropWhile fun c => c ≠ '/'
  let stem := match name.dropWhile fun c => c ≠ '.' with
    | '.' :: stem => if stem = [] then name else stem
    | _ => name
  if stem = ['.'] then String.ofList (['.', '.'] ++ folder).reverse
  else String.ofList (stem ++ folder).reverse ++ "." ++ extension

example : withExtension "d/a.b.evt" "bin" = "d/a.b.bin" := by decide
example : withExtension ".evt" "bin" = ".evt.bin" := by decide
example : withExtension "d/..evt" "bin" = "d/.." := by decide
example : parent? "a//b/./c" = some "a//b" := by decide
example : parent? "./c" = some "." := by decide

end EventScript.Path
