import PredictionMarket.Market.NumberText

/-! Documents as simdjson's on-demand interface yields them. Structure is validated only
where iteration passes, so a malformed place is an error element that stays hidden until
it is reached. -/
namespace PredictionMarket.Market

/-- A value of a document. `none` stands for the error that iteration runs into. -/
inductive Json where
  | scalar
  | string (unescaped : ByteString)
  | array (elements : List (Option Json))
  | object (fields : List (Option (ByteString × Json)))

/-- The result of a lookup: `SUCCESS`, `NO_SUCH_FIELD` or another error code. -/
inductive Lookup where
  | success (v : Json)
  | noSuchField
  | error

/-- An opened object: its fields in the order in which the next search visits them. -/
abbrev Object := List (Option (ByteString × Json))

namespace Object

/-- Search onward from the fields already skipped. -/
def search (key : ByteString) (skipped : Object) : Object → Lookup × Object
  | [] => (.noSuchField, skipped)
  | none :: _ => (.error, [none])
  | some (name, v) :: rest =>
    if name = key then (.success v, rest ++ (skipped ++ [some (name, v)]))
    else search key (skipped ++ [some (name, v)]) rest

/-- A search starts behind the field found last and wraps around once. An error breaks
the object for good. -/
def findFieldUnordered (obj : Object) (key : ByteString) : Lookup × Object := search key [] obj

end Object

namespace Json

def getString : Json → Option ByteString
  | string unescaped => some unescaped
  | _ => none

def getArray : Json → Option (List (Option Json))
  | array elements => some elements
  | _ => none

def getObject : Json → Option Object
  | object fields => some fields
  | _ => none

/-- An iterator that knows one document. -/
def only (text : ByteString) (document : Json) (payload : ByteString) : Option Json :=
  if payload = text then some document else none

end Json

/-- A lookup whose result is read as a string; every error is the same to the caller. -/
def Object.stringField (obj : Object) (key : ByteString) : Option ByteString × Object :=
  match obj.findFieldUnordered key with
  | (.success v, obj) => (v.getString, obj)
  | (_, obj) => (none, obj)

end PredictionMarket.Market
