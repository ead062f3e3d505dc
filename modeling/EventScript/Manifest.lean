import EventScript.Configuration
import EventScript.File.Path
import EventScript.Grammar.Builtin
import EventScript.Job

/-!
# Manifests

A manifest describes a build: the image and where the new one goes, tables, events, IPS files, and
what scripts may use. It is written in JSON. Relative paths in it are seen from the folder it lies
in.
-/

namespace EventScript

/-- An event in a manifest. -/
structure EventSpec where
  table : String
  id : UInt32
  /-- Path of the source text. -/
  source : String
  capacity : Option UInt32 := none
deriving DecidableEq, Repr

/-- An instruction in a manifest. -/
structure MnemonicSpec where
  name : String
  /-- Names of the kinds of the operands. -/
  operands : Option (List String) := none
  template : String
deriving DecidableEq, Repr

/-- The description of a build. -/
structure Manifest where
  /-- Path of the image. -/
  image : String
  /-- Path of the image that is built. -/
  output : String
  layout : Layout := {}
  /-- Paths of source texts that stand in front of every event's. -/
  headers : List String := []
  defines : Defines := .empty
  constants : Constants := .empty
  tables : List TableSpec
  events : List EventSpec := []
  /-- Paths of IPS files. -/
  ips : List String := []
  mnemonics : List MnemonicSpec := []
  /-- The folder from which relative paths are seen. -/
  root : String
deriving DecidableEq, Repr

/-- An instruction of a manifest cannot be defined. -/
structure MnemonicError where
  name : String
  fault : EncodeError
deriving DecidableEq, Repr

/-- The text that names the instruction. -/
def MnemonicError.title (error : MnemonicError) : String :=
  s!"mnemonic `{error.name}`"

/-- The text that reports the fault. -/
def MnemonicError.message (error : MnemonicError) : String :=
  s!"{error.title}: {error.fault.message}"

namespace Manifest

open Json (structured member string number optional list dictionary)

/-- A table in a manifest. -/
def tableReader : Json.Reader TableSpec :=
  structured
    [ member "name" true string fun spec value => { spec with name := value },
      member "offset" true number fun spec value => { spec with offset := value },
      member "count" true number fun spec value => { spec with count := value },
      member "base_id" false number fun spec value => { spec with baseId := value } ]
    true { name := "", offset := 0, count := 0 }

/-- An event in a manifest. -/
def eventReader : Json.Reader EventSpec :=
  structured
    [ member "table" true string fun spec value => { spec with table := value },
      member "id" true number fun spec value => { spec with id := value },
      member "source" true string fun spec value => { spec with source := value },
      member "capacity" false (optional number) fun spec value => { spec with capacity := value } ]
    true { table := "", id := 0, source := "" }

/-- An instruction in a manifest. -/
def mnemonicReader : Json.Reader MnemonicSpec :=
  structured
    [ member "name" true string fun spec value => { spec with name := value },
      member "operands" false (optional (list string)) fun spec value =>
        { spec with operands := value },
      member "template" true string fun spec value => { spec with template := value } ]
    true { name := "", template := "" }

/-- A manifest that lies in the folder `root`. -/
def reader (root : String) : Json.Reader Manifest :=
  structured
    [ member "rom" true string fun manifest value => { manifest with image := value },
      member "output" true string fun manifest value => { manifest with output := value },
      member "layout" false Layout.reader fun manifest value => { manifest with layout := value },
      member "headers" false (list string) fun manifest value => { manifest with headers := value },
      member "defines" false (dictionary string) fun manifest value =>
        { manifest with defines := value },
      member "constants" false (dictionary number) fun manifest value =>
        { manifest with constants := value },
      member "tables" true (list tableReader) fun manifest value =>
        { manifest with tables := value },
      member "events" false (list eventReader) fun manifest value =>
        { manifest with events := value },
      member "ips" false (list string) fun manifest value => { manifest with ips := value },
      member "mnemonics" false (list mnemonicReader) fun manifest value =>
        { manifest with mnemonics := value } ]
    true { image := "", output := "", tables := [], root := root }

/-- The manifest in a JSON text that lies in the folder `root`. -/
def ofJson (root text : String) : Except Json.Error Manifest :=
  Json.document (reader root) text

/-- A path of the manifest, seen from where the manifest is seen. -/
def resolve (manifest : Manifest) (path : String) : String :=
  Path.join manifest.root path

/-- Add an instruction of a manifest. The kinds of its operands are judged first. -/
def define (grammar : Grammar) (spec : MnemonicSpec) : Except EncodeError Grammar :=
  match spec.operands with
  | none => grammar.define spec.name none spec.template
  | some names =>
      match Grammar.kindsOf names with
      | .error fault => .error fault
      | .ok kinds => grammar.define spec.name (some kinds) spec.template

/-- Add instructions of a manifest in order. -/
def defineAll (grammar : Grammar) : List MnemonicSpec → Except MnemonicError Grammar
  | [] => .ok grammar
  | spec :: rest =>
      match define grammar spec with
      | .error fault => .error ⟨spec.name, fault⟩
      | .ok grammar => defineAll grammar rest

/-- The built-in instructions and those of the manifest. -/
def grammar (manifest : Manifest) : Except MnemonicError Grammar :=
  defineAll .builtin manifest.mnemonics

end Manifest

end EventScript
