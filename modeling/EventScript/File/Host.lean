import EventScript.File.Folder

/-!
# What programs run on

A program reads and writes files and prints. A `Host` provides these in a monad, so that a program
is one definition whether it runs on the files of a computer or on a `Session`, which is a folder
together with the texts that were printed.
-/

namespace EventScript

/-- The services a program uses. Each of those on files says whether it could be done. -/
structure Host (m : Type → Type) where
  /-- The bytes of a file. -/
  read : String → m (Option Bytes)
  /-- Write a file whose folder is there. -/
  write : String → Bytes → m Bool
  /-- Make a folder and the folders around it. -/
  makeFolders : String → m Bool
  /-- Print a text. -/
  print : String → m Unit
  /-- Print a text that reports a fault. -/
  report : String → m Unit

/-- A folder, and what was printed. -/
structure Session where
  folder : Folder
  printed : String := ""
  reported : String := ""
deriving DecidableEq, Repr

namespace Session

/-- Change the folder of a session, if that can be done. -/
def change (act : Folder → Option Folder) : StateM Session Bool := fun session =>
  match act session.folder with
  | none => (false, session)
  | some folder => (true, { session with folder := folder })

/-- A session as a host. -/
def host : Host (StateM Session) where
  read path := fun session => (session.folder.read? path, session)
  write path bytes := change fun folder => folder.write? path bytes
  makeFolders path := change fun folder => folder.makeFolders? path
  print text := fun session => ((), { session with printed := session.printed ++ text })
  report text := fun session => ((), { session with reported := session.reported ++ text })

end Session

end EventScript
