import HornReasoner.Json.Value

/-! Reading records out of JSON values.

A record is written as an object, whose unknown fields are ignored and whose known
ones occur once, or as an array of its fields in order. -/
namespace HornReasoner.Json

/-- A field of a record: its name, its value where an object lacks it and its value
where an array ends before it. Without such a value the field is required. -/
structure Field where
  name : String
  absent : Option Json := none
  cut : Option Json := none

/-- A field with one value to fall back on in both forms. -/
def Field.withDefault (name : String) (value : Json) : Field := ⟨name, some value, some value⟩

def find? (name : String) (fields : List (String × Json)) : Option Json :=
  (fields.find? (·.1 == name)).map Prod.snd

/-- The values of the fields in the order of `shape`. -/
def record? (shape : List Field) : Json → Option (List Json)
  | object fields =>
    if shape.all fun f => (fields.filter (·.1 == f.name)).length ≤ 1 then
      shape.mapM fun f => (find? f.name fields).or f.absent
    else none
  | array items =>
    if items.length ≤ shape.length then
      shape.zipIdx.mapM fun e => (items[e.2]?).or e.1.cut
    else none
  | _ => none

def string? : Json → Option String
  | string s => some s
  | _ => none

def bool? : Json → Option Bool
  | bool b => some b
  | _ => none

/-- Reads `null` as an absent value. -/
def option? (read : Json → Option α) : Json → Option (Option α)
  | null => some none
  | j => (read j).map some

def list? (read : Json → Option α) : Json → Option (List α)
  | array items => items.mapM read
  | _ => none

/-- A variant is named by a string, or by an object whose only field has its name and
no value. -/
def variant? : Json → Option String
  | string s => some s
  | object [(name, null)] => some name
  | _ => none

/-- The variant and the content of a value written as a `type` and a `value`. -/
def tagged? (j : Json) : Option (String × Json) :=
  match record? [{ name := "type" }, { name := "value" }] j with
  | some [tag, content] => (variant? tag).map (·, content)
  | _ => none

def tagged (variant : String) (content : Json) : Json :=
  object [("type", string variant), ("value", content)]

end HornReasoner.Json
