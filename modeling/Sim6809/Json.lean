/-
JSON as a tree, the notation that save-states are written in.

Only the tree is here; `Json.Text` reads it from text. An object is the list of its
members in the order written, and a number that is not written as an integer is kept
apart from the integers, because no field of a save-state accepts one.
-/

set_option autoImplicit false

namespace Sim6809

/-- A JSON value. -/
inductive Json
  | null
  | bool (value : Bool)
  | integer (value : Int)
  /-- A number with decimal places or an exponent: `mantissa` times ten to the
  `exponent`. -/
  | decimal (mantissa : Int) (exponent : Int)
  | string (value : String)
  | array (items : List Json)
  | object (members : List (String × Json))
deriving Inhabited

namespace Json

/-- The member of that name, for an object that has one. -/
def member? (name : String) : Json → Option Json
  | object members => members.lookup name
  | _ => none

/-- The values of a record's fields. An object may list them in any order and hold
other members besides; an array lists them in the record's own order. -/
def fields? (names : List String) : Json → Option (List Json)
  | object members => names.mapM fun name => members.lookup name
  | array items => if items.length = names.length then some items else none
  | _ => none

/-! ## Editing

A path leads from the root into objects by name and into arrays by index. -/

/-- A value put at a path, or a path removed. -/
inductive Edit
  | set (path : List String) (value : Json)
  | remove (path : List String)

/-- Replaces the member of that name, or adds it at the end. -/
def insertMember (name : String) (value : Json) : List (String × Json) → List (String × Json)
  | [] => [(name, value)]
  | (key, old) :: rest =>
    if key == name then (key, value) :: rest else (key, old) :: insertMember name value rest

/-- The child that a segment leads to. -/
def child? (segment : String) : Json → Option Json
  | object members => members.lookup segment
  | array items => segment.toNat?.bind fun index => items[index]?
  | _ => none

/-- Puts a value under a segment: a member is replaced or added, an element
replaced, or appended right after the last. -/
def setChild? (segment : String) (value : Json) : Json → Option Json
  | object members => some (object (insertMember segment value members))
  | array items =>
    segment.toNat?.bind fun index =>
      if index < items.length then some (array (items.set index value))
      else if index = items.length then some (array (items ++ [value]))
      else none
  | _ => none

/-- Removes what is under a segment. Later elements of an array move down. -/
def removeChild? (segment : String) : Json → Option Json
  | object members => some (object (members.filter fun entry => entry.1 != segment))
  | array items =>
    segment.toNat?.bind fun index =>
      if index < items.length then some (array (items.eraseIdx index)) else none
  | _ => none

/-- Changes what is at the end of a path. `none` if the path leads nowhere. -/
def updateAt? (last : String → Json → Option Json) : List String → Json → Option Json
  | [], _ => none
  | [segment], json => last segment json
  | segment :: path, json => do
    let child ← child? segment json
    let child ← updateAt? last path child
    setChild? segment child json

/-- Makes one edit. -/
def edit? (json : Json) : Edit → Option Json
  | .set path value => updateAt? (fun segment => setChild? segment value) path json
  | .remove path => updateAt? removeChild? path json

/-- Makes edits in order. -/
def editAll? (json : Json) (edits : List Edit) : Option Json := edits.foldlM edit? json

end Json

end Sim6809
