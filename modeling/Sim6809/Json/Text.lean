/-
JSON text, read into a tree.

The tokens are put together one at a time. Between two of them the reader stands at
one of few places, where a value may come, a name, or a separator. `Place` says
which, and holds what has been read of the containers around it. So reading is a
fold, as the scan is, and containers can be nested to any depth.

A name that an object repeats keeps its last value.
-/
import Sim6809.Json.Token

set_option autoImplicit false

namespace Sim6809.Json

/-- A container that is being read, up to where its next value goes. -/
inductive Container
  /-- An array with its items so far, last first. -/
  | array (items : List Json)
  /-- An object with its members so far and the name of the one that comes. -/
  | object (members : List (String × Json)) (name : String)

/-- What has been read, by what may come next. The containers around it are listed
from the inside. -/
inductive Place
  /-- A value has to come. -/
  | value (around : List Container)
  /-- An array has just been opened. -/
  | firstItem (around : List Container)
  /-- An object has just been opened. -/
  | firstName (around : List Container)
  /-- A member's name has to come. -/
  | name (members : List (String × Json)) (around : List Container)
  /-- A member's name has come, and its colon has to. -/
  | colon (members : List (String × Json)) (name : String) (around : List Container)
  /-- A value is complete. -/
  | complete (value : Json) (around : List Container)

/-- The first token of a value. -/
def begin? (around : List Container) : Token → Option Place
  | .leaf value => some (.complete value around)
  | .openArray => some (.firstItem around)
  | .openObject => some (.firstName around)
  | _ => none

/-- One token more. -/
def assemble : Place → Token → Option Place
  | .value around, token => begin? around token
  | .firstItem around, .closeArray => some (.complete (.array []) around)
  | .firstItem around, token => begin? (.array [] :: around) token
  | .firstName around, .closeObject => some (.complete (.object []) around)
  | .firstName around, .leaf (.string name) => some (.colon [] name around)
  | .name members around, .leaf (.string name) => some (.colon members name around)
  | .colon members name around, .colon => some (.value (.object members name :: around))
  | .complete value (.array items :: around), .comma =>
    some (.value (.array (value :: items) :: around))
  | .complete value (.array items :: around), .closeArray =>
    some (.complete (.array (value :: items).reverse) around)
  | .complete value (.object members name :: around), .comma =>
    some (.name (insertMember name value members) around)
  | .complete value (.object members name :: around), .closeObject =>
    some (.complete (.object (insertMember name value members)) around)
  | _, _ => none

/-- The tree that a text is. -/
def ofText? (text : String) : Option Json := do
  let place ← (← tokens? text).foldlM assemble (.value [])
  match place with
  | .complete value [] => some value
  | _ => none

end Sim6809.Json
