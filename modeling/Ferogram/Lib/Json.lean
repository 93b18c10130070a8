import Mathlib.Data.List.Basic

/- Values of JSON, as a parser hands them out, and the accessors that look into them: each
   returns nothing for a value of another kind. A number is known by its value as an unsigned
   integer, where it has one. -/

inductive Json where
  | null
  | bool (b : Bool)
  | number (asUnsigned : Option Nat)
  | string (s : String)
  | array (items : List Json)
  | object (fields : List (String × Json))

namespace Json

def get (key : String) : Json → Option Json
  | object fields => fields.lookup key
  | _ => none

def asStr : Json → Option String
  | string s => some s
  | _ => none

def asArray : Json → Option (List Json)
  | array items => some items
  | _ => none

def asU64 : Json → Option Nat
  | number n => n
  | _ => none

end Json
