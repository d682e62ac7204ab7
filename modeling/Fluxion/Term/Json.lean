import Fluxion.Term
import Fluxion.Json

/-!
# Terms as JSON

A list of terms is an array of objects. An atom is written as a string and a composite key as an object
with its own array of terms.
-/

namespace Fluxion

variable {α : Type}

mutual

/-- A key as a JSON value. -/
def Key.toJson : Key α → Json α
  | .atom x => .str x
  | .composite ts => .obj [("composite", .arr (Terms.toJsons ts))]

/-- Factors as JSON values. -/
def Factors.toJsons : List (Factor α) → List (Json α)
  | [] => []
  | ⟨k, e⟩ :: fs => .obj [("exponent", .num e), ("key", k.toJson)] :: Factors.toJsons fs

/-- Terms as JSON values. -/
def Terms.toJsons : List (Term α) → List (Json α)
  | [] => []
  | ⟨c, fs⟩ :: ts =>
    .obj [("coefficient", .num c), ("factors", .arr (Factors.toJsons fs))] :: Terms.toJsons ts

end

/-- A list of terms as a JSON array. -/
def Terms.toJson (ts : List (Term α)) : Json α := .arr (Terms.toJsons ts)

end Fluxion
