import ResourceQuery.Number.Binary64

/-!
JSON values. Numbers are integers of sixty-four bits or floats, and the two are kept apart.
-/

set_option autoImplicit false

namespace ResourceQuery

inductive Json where
  | null
  | boolean (b : Bool)
  | integer (n : Int64)
  | float (x : Number.Binary64)
  | string (text : String)
  | array (items : List Json)
  | object (fields : List (String × Json))
  deriving Inhabited

end ResourceQuery
