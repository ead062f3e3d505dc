import EventScript.Assembly.Symbol
import EventScript.Json.Reader
import EventScript.Layout

/-!
# Constants and layouts as JSON
-/

namespace EventScript

/-- Constants from a JSON object of numbers by name. -/
def Constants.ofJson (text : String) : Except Json.Error Constants :=
  Json.document (Json.dictionary Json.number) text

namespace Layout

/-- The members of a layout in JSON. -/
def members : List (Json.Member Layout) :=
  [ Json.member "load_base" false Json.number fun layout value => { layout with loadBase := value },
    Json.member "free_base" false Json.number fun layout value => { layout with freeBase := value },
    Json.member "free_size" false Json.number fun layout value =>
      { layout with freeSize := value } ]

/-- A layout in JSON. Members that are missing have their usual values, and unknown ones are passed
over. -/
def reader : Json.Reader Layout :=
  Json.structured members false {}

/-- A layout from JSON. -/
def ofJson (text : String) : Except Json.Error Layout :=
  Json.document reader text

end Layout

end EventScript
