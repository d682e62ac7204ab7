import Fluxion.Term

/-!
# Like terms

Two terms are alike when they have the same factors up to order. That is decided by text: a term has a
*signature*, its sorted factors written out, and a composite key has a *canonical* name, its grouped
terms written out in sorted order. Grouping regroups the composite keys of every term, merges factors
with the same name and then terms with the same signature.

Names of composite keys and grouping need each other, one nesting level further in each time. So both
are defined together, level by level: `Naming.level n` is right for everything that is nested at most
`n` deep, and a key or a list of terms is looked at from the level of its own depth.
-/

namespace Fluxion

variable {α : Type} [Scalar α]

/-- Texts in increasing order. -/
def sortTexts (parts : List String) : List String := parts.mergeSort fun a b => decide (a ≤ b)

/-! ### Factors and signatures, for a given naming of keys -/

/-- The factor as a list, empty when the exponent is zero. -/
def Factor.keep (f : Factor α) : List (Factor α) := if f.exponent == 0 then [] else [f]

/-- Multiply a factor whose key is called `label` into a list of factors. The exponents of the first
factor with the same name are added up, and factors whose exponent is zero disappear. -/
def Factors.insertNamed (name : Key α → String) (label : String) (f : Factor α) :
    List (Factor α) → List (Factor α)
  | [] => f.keep
  | g :: gs =>
    if name g.key == label then
      Factor.keep ⟨g.key, g.exponent + f.exponent⟩ ++ gs.flatMap Factor.keep
    else g.keep ++ Factors.insertNamed name label f gs

/-- Multiply one factor into a list of factors. -/
def Factors.insert (name : Key α → String) (f : Factor α) (fs : List (Factor α)) :
    List (Factor α) :=
  Factors.insertNamed name (name f.key) f fs

/-- Multiply factors one after the other into a list of factors. -/
def Factors.insertAll (name : Key α → String) (start fs : List (Factor α)) : List (Factor α) :=
  fs.foldl (fun acc f => Factors.insert name f acc) start

/-- The text of a factor inside a signature. -/
def Factor.label (name : Key α → String) (f : Factor α) : String :=
  name f.key ++ "^" ++ Scalar.text f.exponent

/-- The sorted factors of a term; `constant` for a term without factors. -/
def Term.signatureWith (name : Key α → String) (t : Term α) : String :=
  if t.factors.isEmpty then "constant"
  else String.intercalate "*" (sortTexts (t.factors.map (Factor.label name)))

/-- The name of a composite key with the given terms, which are grouped already. -/
def Terms.nameWith (name : Key α → String) (ts : List (Term α)) : String :=
  let parts := ts.map fun t => Scalar.text t.coefficient ++ "*" ++ t.signatureWith name
  "(" ++ String.intercalate "+" (sortTexts parts) ++ ")"

/-! ### Merging, for a given naming of keys and a given grouping of composite keys -/

/-- Regroup a composite key. -/
def Key.regroup (inner : List (Term α) → List (Term α)) : Key α → Key α
  | .atom x => .atom x
  | .composite ts => .composite (inner ts)

/-- Regroup the composite keys of a term and merge its factors. -/
def Term.canonicalWith (name : Key α → String) (inner : List (Term α) → List (Term α))
    (t : Term α) : Term α :=
  ⟨t.coefficient,
    Factors.insertAll name [] (t.factors.map fun f => ⟨f.key.regroup inner, f.exponent⟩)⟩

/-- Add a term to a list of terms that stand beside their signatures. A term that is alike one of
them is merged into it, and the place of the first one is kept. -/
def Terms.insertSigned (signature : String) (t : Term α) :
    List (String × Term α) → List (String × Term α)
  | [] => [(signature, t)]
  | (s, u) :: rest =>
    if s == signature then (s, ⟨u.coefficient + t.coefficient, u.factors⟩) :: rest
    else (s, u) :: Terms.insertSigned signature t rest

/-- The terms beside their signatures, like terms merged. -/
def Terms.mergeWith (name : Key α → String) (inner : List (Term α) → List (Term α))
    (ts : List (Term α)) : List (String × Term α) :=
  ts.foldl
    (fun acc t =>
      let u := t.canonicalWith name inner
      Terms.insertSigned (u.signatureWith name) u acc)
    []

/-- Merge like terms in the order of their first occurrence and drop those that cancel. -/
def Terms.groupWith (name : Key α → String) (inner : List (Term α) → List (Term α))
    (ts : List (Term α)) : List (Term α) :=
  ((Terms.mergeWith name inner ts).map (·.2)).filter fun t => !(t.coefficient == 0)

/-! ### Level by level -/

/-- A way to name keys and to group terms. -/
structure Naming (α : Type) where
  /-- The canonical name of a key. -/
  name : Key α → String
  /-- Like terms merged. -/
  group : List (Term α) → List (Term α)

namespace Naming

/-- Names of keys when the terms inside composite keys are named and grouped by `inner`. -/
def nameStep (inner : Naming α) : Key α → String
  | .atom x => x
  | .composite ts => Terms.nameWith inner.name (inner.group ts)

/-- The next level. -/
def step (inner : Naming α) : Naming α where
  name := inner.nameStep
  group := Terms.groupWith inner.nameStep inner.group

/-- The level for terms without composite keys. -/
def flat : Naming α where
  name
    | .atom x => x
    | .composite _ => ""
  group :=
    Terms.groupWith
      (fun
        | .atom x => x
        | .composite _ => "")
      id

/-- The naming and grouping for nesting depth up to `n`. -/
def level : (n : Nat) → Naming α
  | 0 => flat
  | n + 1 => (level n).step

end Naming

/-! ### Names, signatures and grouping -/

/-- The canonical name of a key. Composite keys that differ only in the order of their terms or in
like terms that were not merged have the same name. -/
def Key.canonical (k : Key α) : String := (Naming.level k.depth).name k

/-- The two keys denote the same base. -/
def Key.same (a b : Key α) : Bool := a.canonical == b.canonical

/-- What terms that are alike have in common. -/
def Term.signature (t : Term α) : String := t.signatureWith Key.canonical

/-- Regroup composite keys, merge like terms in the order of their first occurrence and drop those
whose coefficients cancel. -/
def Terms.group (ts : List (Term α)) : List (Term α) := (Naming.level (Terms.depth ts)).group ts

end Fluxion
