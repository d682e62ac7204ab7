/-!
# JSON values

JSON values with numbers of any type `ν`. An object keeps its fields in the order in which they were
written, repeated names included; looking a name up finds the last field that has it.
-/

namespace Fluxion

/-- A JSON value. -/
inductive Json (ν : Type) where
  | null
  | bool (value : Bool)
  | num (value : ν)
  | str (value : String)
  | arr (items : List (Json ν))
  | obj (fields : List (String × Json ν))
deriving Inhabited

namespace Json

variable {ν μ ε β : Type}

/-- The last entry under a name. -/
def lookup? (name : String) : List (String × β) → Option β
  | [] => none
  | (k, v) :: rest => (lookup? name rest).or (if k == name then some v else none)

/-- The field of an object; `none` for a field that is missing and for other values. -/
def get? (name : String) : Json ν → Option (Json ν)
  | obj fields => lookup? name fields
  | _ => none

/-- The text of a string value. -/
def str? : Json ν → Option String
  | str s => some s
  | _ => none

/-- The text of a string value, empty for any other value. -/
def strD (j : Option (Json ν)) : String := (j.bind str?).getD ""

/-- The value is a number. -/
def isNumber : Json ν → Bool
  | num _ => true
  | _ => false

mutual

/-- Convert the numbers of a value in the order in which they stand; the first failure counts. -/
def mapNumbers (f : ν → Except ε μ) : Json ν → Except ε (Json μ)
  | null => .ok .null
  | bool b => .ok (.bool b)
  | num v => (f v).map .num
  | str s => .ok (.str s)
  | arr items => (mapItems f items).map .arr
  | obj fields => (mapFields f fields).map .obj

/-- Convert the numbers of the items of an array. -/
def mapItems (f : ν → Except ε μ) : List (Json ν) → Except ε (List (Json μ))
  | [] => .ok []
  | j :: js => do return (← mapNumbers f j) :: (← mapItems f js)

/-- Convert the numbers of the fields of an object. -/
def mapFields (f : ν → Except ε μ) :
    List (String × Json ν) → Except ε (List (String × Json μ))
  | [] => .ok []
  | (k, j) :: fs => do return (k, ← mapNumbers f j) :: (← mapFields f fs)

end

mutual

/-- The numbers of a value in the order in which they stand. -/
def numbers : Json ν → List ν
  | null => []
  | bool _ => []
  | num v => [v]
  | str _ => []
  | arr items => itemNumbers items
  | obj fields => fieldNumbers fields

/-- The numbers of the items of an array. -/
def itemNumbers : List (Json ν) → List ν
  | [] => []
  | j :: js => numbers j ++ itemNumbers js

/-- The numbers of the fields of an object. -/
def fieldNumbers : List (String × Json ν) → List ν
  | [] => []
  | (_, j) :: fs => numbers j ++ fieldNumbers fs

end

end Json

end Fluxion
