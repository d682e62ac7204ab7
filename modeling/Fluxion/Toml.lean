/-!
# TOML documents

A document is a list of statements: headers that open a table, and assignments. `Document.build` puts
the statements together into nested tables and refuses a document that defines something twice; only an
array gives way to a later definition. It also keeps the keys that are written down, in the order in which
their values are complete, so that the keys inside an inline table come before the key of that table.
Tables that only come into being because something inside of them is defined are not among those keys.
-/

namespace Fluxion.Toml

/-- The name of a value: the names of the tables around it and its own. -/
abbrev Key := List String

/-- A value as it is written. -/
inductive Value where
  /-- A string. -/
  | str (s : String)
  /-- An integer. -/
  | int (n : Int)
  /-- A truth value. -/
  | bool (b : Bool)
  /-- A number with a fraction or an exponent; no setting takes one. -/
  | float
  /-- A date or a time; no setting takes one. -/
  | datetime
  /-- An array. -/
  | array (items : List Value)
  /-- A table on one line. -/
  | inline (entries : List (Key × Value))

/-- The value is an array. -/
def Value.isArray : Value → Bool
  | .array _ => true
  | _ => false

/-- A statement of a document. -/
inductive Statement where
  /-- Open a table. -/
  | table (key : Key)
  /-- Open another element of an array of tables. -/
  | element (key : Key)
  /-- Give a value to a key of the open table. -/
  | assign (key : Key) (value : Value)

/-- What a name stands for. -/
inductive Node where
  /-- A string. -/
  | str (s : String)
  /-- An integer. -/
  | int (n : Int)
  /-- A truth value. -/
  | bool (b : Bool)
  /-- A number that is not an integer, a date, or an array. -/
  | other
  /-- A table. -/
  | table (entries : List (String × Node))
  /-- An array of tables, last element first. -/
  | tables (elements : List (List (String × Node)))

/-- The entries of a table. -/
abbrev Entries := List (String × Node)

namespace Entries

/-- What a name stands for. -/
def get? (name : String) : Entries → Option Node
  | [] => none
  | e :: es => if e.1 == name then some e.2 else get? name es

/-- Let a name stand for something. -/
def set (name : String) (node : Node) : Entries → Entries
  | [] => [(name, node)]
  | e :: es => if e.1 == name then (name, node) :: es else e :: set name node es

/-- The table at a key. In an array of tables the last one is meant. -/
def table? : Key → Entries → Option Entries
  | [], es => some es
  | name :: key, es =>
    match get? name es with
    | some (.table inner) => table? key inner
    | some (.tables (last :: _)) => table? key last
    | _ => none

/-- Replace the table at a key. -/
def replace (new : Entries) : Key → Entries → Entries
  | [], _ => new
  | name :: key, es =>
    match get? name es with
    | some (.table inner) => set name (.table (replace new key inner)) es
    | some (.tables (last :: before)) => set name (.tables (replace new key last :: before)) es
    | _ => es

end Entries

/-- A document that is being put together. -/
structure Builder where
  /-- The outermost table. -/
  root : Entries := []
  /-- The tables that exist only because something inside of them is defined. -/
  implied : List Key := []
  /-- The keys whose value is an array. -/
  arrays : List Key := []
  /-- The keys written down so far, last one first. -/
  keys : List Key := []
  /-- The table that is open. -/
  context : Key := []

namespace Builder

/-- Mark a table as implied. -/
def imply (b : Builder) (key : Key) : Builder :=
  { b with implied := if b.implied.contains key then b.implied else key :: b.implied }

/-- Do not regard a table as implied any more. -/
def settle (b : Builder) (key : Key) : Builder :=
  { b with implied := b.implied.filter fun k => k != key }

/-- Record that the value at a key is an array, or that it is not. -/
def markArray (b : Builder) (key : Key) (isArray : Bool) : Builder :=
  let others := b.arrays.filter fun k => k != key
  { b with arrays := if isArray then key :: others else others }

/-- Let a name in the table `context`, whose entries are `es`, stand for something. -/
def put (b : Builder) (context : Key) (es : Entries) (name : String) (node : Node) : Builder :=
  { b with root := Entries.replace (Entries.set name node es) context b.root }

/-- Define a name in the table `context`. An implied table becomes an explicit one, an array gives way,
and anything else must not be defined twice. -/
def define (b : Builder) (context : Key) (name : String) (node : Node) : Option Builder := do
  let es ← Entries.table? context b.root
  let key := context ++ [name]
  match Entries.get? name es with
  | none => return b.put context es name node
  | some _ =>
    if b.arrays.contains key then return (b.put context es name node).settle key
    else if b.implied.contains key then return b.settle key
    else none

/-- Make sure that the tables around the last name of a key exist. -/
def enter (b : Builder) (context : Key) : Key → Option Builder
  | [] => some b
  | [_] => some b
  | name :: key => do
    let es ← Entries.table? context b.root
    let inner := context ++ [name]
    let b :=
      if (Entries.get? name es).isNone then (b.put context es name (.table [])).imply inner else b
    enter b inner key

/-- Open a table. -/
def openTable (b : Builder) (key : Key) : Option Builder := do
  let name ← key.getLast?
  let b ← b.enter [] key
  b.define key.dropLast name (.table [])

/-- Open another element of an array of tables. -/
def openElement (b : Builder) (key : Key) : Option Builder := do
  let name ← key.getLast?
  let b ← b.enter [] key
  let es ← Entries.table? key.dropLast b.root
  match Entries.get? name es with
  | none => return b.put key.dropLast es name (.tables [[]])
  | some (.tables elements) => return b.put key.dropLast es name (.tables ([] :: elements))
  | some _ => none

/-- Open the tables that the parts of a dotted key before the last one name. -/
def openParts (b : Builder) (context : Key) : Key → Option (Builder × Key)
  | [] => some (b, context)
  | name :: rest => do
    let inner := context ++ [name]
    let b ← (b.imply inner).openTable inner
    openParts b inner rest

/-- The table that a dotted key points into and its last name. -/
def target (b : Builder) (context : Key) (key : Key) : Option (Builder × Key × String) := do
  let name ← key.getLast?
  let (b, inner) ← b.openParts context key.dropLast
  return (b, inner, name)

/-- The key under which it is recorded whether a name of the table `context` has an array as its value.
An empty name speaks for the table itself, unless that is the outermost one. -/
def kindKey (context : Key) (name : String) : Key :=
  if name.isEmpty then (if context.isEmpty then [name] else context) else context ++ [name]

/-- Define a name in the table `context` and write its key down. -/
def complete (b : Builder) (context : Key) (name : String) (isArray : Bool) (node : Node) :
    Option Builder := do
  let b := (← b.define context name node).markArray (kindKey context name) isArray
  return { b with keys := (context ++ [name]) :: b.keys }

mutual

/-- What a value is for a name in the table `context`. The keys inside the value are defined on the way:
an inline table is opened like any other table, or as an element of an array of tables if it is an item
of an array. -/
def place (b : Builder) (context : Key) (name : String) (inArray : Bool) :
    Value → Option (Builder × Node)
  | .str s => some (b, .str s)
  | .int n => some (b, .int n)
  | .bool v => some (b, .bool v)
  | .float => some (b, .other)
  | .datetime => some (b, .other)
  | .array items => do
    let b ← placeItems (b.markArray (kindKey context name) true) context name items
    return (b, .other)
  | .inline entries => do
    let table := context ++ [name]
    let b := b.imply table
    let b ← if inArray then b.openElement table else b.openTable table
    let (b, es) ← placeEntries b table [] entries
    return (b, .table es)

/-- Define the keys inside the items of the array that a name has as its value. -/
def placeItems (b : Builder) (context : Key) (name : String) : List Value → Option Builder
  | [] => some b
  | v :: rest => do
    let (b, _) ← place b context name true v
    placeItems b context name rest

/-- Define the entries of the inline table `context`; `es` holds the earlier ones under the last names of
their keys. -/
def placeEntries (b : Builder) (context : Key) (es : Entries) :
    List (Key × Value) → Option (Builder × Entries)
  | [] => some (b, es)
  | (key, v) :: rest => do
    let (b, inner, name) ← b.target context key
    let (b, node) ← place b inner name false v
    let b ← b.complete inner name v.isArray node
    placeEntries b context (Entries.set name node es) rest

end

/-- Give a value to a key inside the table `context`. -/
def assign (b : Builder) (context : Key) (key : Key) (value : Value) : Option Builder := do
  let (b, inner, name) ← b.target context key
  let (b, node) ← b.place inner name false value
  b.complete inner name value.isArray node

/-- Carry out a statement. -/
def statement (b : Builder) : Statement → Option Builder
  | .table key => do
    let b ← b.openTable key
    return ({ b with context := key, keys := key :: b.keys }).markArray key false
  | .element key => do
    let b ← b.openElement key
    return ({ b with context := key, keys := key :: b.keys }).markArray key false
  | .assign key value => b.assign b.context key value

end Builder

/-- A document whose definitions are consistent. -/
structure Document where
  /-- The outermost table. -/
  root : Entries
  /-- The keys that are written down, in the order in which their values are complete. -/
  keys : List Key

/-- Put statements together; `none` if something is defined twice. -/
def Document.build (statements : List Statement) : Option Document := do
  let b ← statements.foldlM Builder.statement {}
  return ⟨b.root, b.keys.reverse⟩

/-- A name that needs no quotes consists of letters, digits, underscores and dashes. -/
def isBareChar (c : Char) : Bool := c.isAlphanum || c == '_' || c == '-'

/-- A character of a quoted name. -/
def escapeNameChar (c : Char) : String :=
  match c.toNat with
  | 8 => "\\b"
  | 9 => "\\t"
  | 10 => "\\n"
  | 12 => "\\f"
  | 13 => "\\r"
  | 34 => "\\\""
  | 92 => "\\\\"
  | n =>
    if n < 0x20 || n == 0x7F then
      let digits := Nat.toDigits 16 n
      "\\u" ++ String.ofList (List.replicate (4 - digits.length) '0' ++ digits)
    else String.singleton c

/-- A part of a key, quoted where necessary. -/
def renderName (name : String) : String :=
  if name.isEmpty || !name.toList.all isBareChar then
    name.toList.foldl (fun acc c => acc ++ escapeNameChar c) "\"" ++ "\""
  else name

/-- A key as it could be written. -/
def renderKey (key : Key) : String := String.intercalate "." (key.map renderName)

end Fluxion.Toml
