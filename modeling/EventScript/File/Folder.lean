import EventScript.Bytes
import EventScript.File.Path

/-!
# Folders

A `Folder` holds files and folders, and paths are seen from it. Files can be read and written, and
folders made. A path may lead through the folders around it, but finds nothing there.
`read?_of_write?` says that what was written is what is read.
-/

namespace EventScript

/-- The names on the way from a folder to something in it. -/
abbrev Location := List (List Char)

/-- A folder with everything in it. -/
structure Folder where
  files : List (Location × Bytes)
  folders : List Location
deriving DecidableEq, Repr

namespace Folder

/-- The longest name a file or folder can have, in bytes. -/
def maxName : Nat := 255

/-- The longest path that can be followed, in bytes. -/
def maxPath : Nat := 4095

/-- A file or folder can be made with this name. -/
def validName (name : List Char) : Bool :=
  (String.ofList name).utf8ByteSize ≤ maxName && !name.contains '\x00'

/-- The name does not name a new place, but the folder itself or the one around it. -/
def isRelative (name : List Char) : Bool :=
  name == [] || name == ['.'] || name == ['.', '.']

/-- The bytes of the file at a location. -/
def fileAt? (folder : Folder) (location : Location) : Option Bytes :=
  (folder.files.find? fun file => file.1 == location).map Prod.snd

/-- The folder that a path has led to so far. -/
inductive Position where
  /-- A folder at a location. -/
  | inside (location : Location)
  /-- A folder around this one. Nothing is known to be in it. -/
  | outside
deriving DecidableEq, Repr

/-- Where a path starts. -/
def Position.start (path : String) : Position :=
  if Path.isAbsolute path then .outside else .inside []

/-- The folder around a position. -/
def Position.up : Position → Position
  | .inside [] => .outside
  | .inside location => .inside location.dropLast
  | .outside => .outside

/-- The folder one name further, if one is there. -/
def step? (folder : Folder) (position : Position) (name : List Char) : Option Position :=
  if name = [] ∨ name = ['.'] then some position
  else if name = ['.', '.'] then some position.up
  else
    match position with
    | .outside => none
    | .inside location =>
        if folder.folders.contains (location ++ [name]) then some (.inside (location ++ [name]))
        else none

/-- The folder that names lead to, one after the other. -/
def walk? (folder : Folder) (position : Position) : List (List Char) → Option Position
  | [] => some position
  | name :: rest =>
      match folder.step? position name with
      | none => none
      | some next => folder.walk? next rest

/-- The location of the file with a path, whose folder has to be there. -/
def locate? (folder : Folder) (path : String) : Option Location :=
  if path.isEmpty || maxPath < path.utf8ByteSize then none
  else
    let names := Path.split path.toList
    match names.getLast? with
    | none => none
    | some name =>
        if isRelative name then none
        else
          match folder.walk? (.start path) names.dropLast with
          | some (.inside location) => some (location ++ [name])
          | _ => none

/-- The bytes of the file with a path. -/
def read? (folder : Folder) (path : String) : Option Bytes :=
  match folder.locate? path with
  | none => none
  | some location => folder.fileAt? location

/-- The folder after bytes are written to the file with a path. -/
def write? (folder : Folder) (path : String) (bytes : Bytes) : Option Folder :=
  match folder.locate? path with
  | none => none
  | some location =>
      if folder.folders.contains location || !location.all validName then none
      else
        some { folder with
          files := (location, bytes) :: folder.files.filter fun file => file.1 != location }

/-- Walking depends only on which folders there are. -/
theorem walk?_congr {folder other : Folder} (h : folder.folders = other.folders)
    (position : Position) (names : List (List Char)) :
    folder.walk? position names = other.walk? position names := by
  induction names generalizing position with
  | nil => rfl
  | cons name rest ih => simp only [walk?, step?, h, ih]

/-- The location of a file depends only on which folders there are. -/
theorem locate?_congr {folder other : Folder} (h : folder.folders = other.folders)
    (path : String) : folder.locate? path = other.locate? path := by
  simp only [locate?, walk?_congr h]

/-- A file holds what was written to it. -/
theorem read?_of_write? {folder after : Folder} {path : String} {bytes : Bytes}
    (h : folder.write? path bytes = some after) : after.read? path = some bytes := by
  unfold write? at h
  split at h
  · simp at h
  · rename_i location hlocation
    split at h
    · simp at h
    · have hafter := Option.some.inj h
      have hfolders : after.folders = folder.folders := by rw [← hafter]
      rw [read?, locate?_congr hfolders, hlocation, ← hafter]
      simp [fileAt?]

/-- Make a folder at a location unless one is there. -/
def makeFolder? (folder : Folder) (location : Location) : Option Folder :=
  if folder.folders.contains location then some folder
  else if (folder.fileAt? location).isSome || !location.all validName then none
  else some { folder with folders := location :: folder.folders }

/-- Make the folders that names lead to, one after the other. -/
def makeOnWay? (folder : Folder) (position : Position) : List (List Char) → Option Folder
  | [] => some folder
  | name :: rest =>
      match folder.step? position name with
      | some next => folder.makeOnWay? next rest
      | none =>
          match position with
          | .outside => none
          | .inside location =>
              match folder.makeFolder? (location ++ [name]) with
              | none => none
              | some folder => folder.makeOnWay? (.inside (location ++ [name])) rest

/-- The folder after the folders on a path are made. -/
def makeFolders? (folder : Folder) (path : String) : Option Folder :=
  if path.isEmpty then some folder
  else if maxPath < path.utf8ByteSize then none
  else folder.makeOnWay? (.start path) (Path.split path.toList)

/-- The locations of the folders around a location. -/
def around (location : Location) : List Location :=
  (List.range location.length).filterMap fun count =>
    if count = 0 then none else some (location.take count)

/-- The location that a path of names spells. -/
def locationOf (path : String) : Location :=
  (Path.split path.toList).filter fun name => name ≠ [] ∧ name ≠ ['.']

/-- The folder that holds the given files and the folders they lie in. -/
def ofFiles (files : List (String × Bytes)) : Folder :=
  let located := files.map fun (path, bytes) => (locationOf path, bytes)
  { files := located
    folders := (located.flatMap fun file => around file.1).eraseDups }

/-- The path of a location. -/
def pathOf (location : Location) : String :=
  "/".intercalate (location.map String.ofList)

/-- The files that an earlier state of the folder does not hold, or holds with other bytes. -/
def changesSince (folder earlier : Folder) : List (String × Bytes) :=
  (folder.files.filter fun file => earlier.fileAt? file.1 != some file.2).map
    fun (location, bytes) => (pathOf location, bytes)

end Folder

end EventScript
