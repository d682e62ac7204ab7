import Fluxion.Integer
import Fluxion.Text.Utf8

/-!
# Flags

Arguments that start with a dash are flags; all others are positional, and the two may be mixed. A flag
has a long name and perhaps a letter: `--name value`, `--name=value`, `-n value`, `-nvalue`, `-n=value`.
A switch needs no value, and letters of switches may be put together. `--` ends the flags.
-/

namespace Fluxion.CommandLine

/-- What kind of value a flag takes. -/
inductive FlagKind where
  /-- Any text. -/
  | text
  /-- A truth value, true if none is given. -/
  | switch
  /-- An integer. -/
  | integer
deriving DecidableEq, Repr

/-- A flag that a command knows. -/
structure Flag where
  /-- Its long name. -/
  name : String
  /-- Its letter. -/
  letter : Option Char := none
  /-- What kind of value it takes. -/
  kind : FlagKind
deriving DecidableEq, Repr

/-- The value that was given to a flag. -/
inductive FlagValue where
  /-- The value of a text flag. -/
  | text (s : String)
  /-- The value of a switch. -/
  | switch (b : Bool)
  /-- The value of an integer flag. -/
  | integer (n : Int)
deriving DecidableEq, Repr

/-- Why the flags cannot be read. -/
inductive FlagError where
  /-- Two dashes are followed by something that is no name. -/
  | badForm (argument : String)
  /-- No flag has this name. -/
  | unknown (name : String)
  /-- No flag has this letter; `group` is what stands from the letter on. -/
  | unknownLetter (letter : Char) (group : List UInt8)
  /-- The value of a flag is missing. -/
  | noValue (argument : String)
  /-- The value of a flag given by its letter is missing. -/
  | noLetterValue (letter : Char) (group : List UInt8)
  /-- A value is not of the kind that the flag takes. -/
  | badValue (flag : Flag) (value : String) (cause : String)
  /-- Help is asked for where it is no flag of its own. -/
  | helpRequested
deriving DecidableEq, Repr

namespace Flag

/-- How errors name the flag. -/
def label (f : Flag) : String :=
  match f.letter with
  | some c => "-" ++ String.singleton c ++ ", --" ++ f.name
  | none => "--" ++ f.name

/-- The flag can stand without a value. -/
def isSwitch (f : Flag) : Bool := f.kind = .switch

/-- The truth value that a text denotes. -/
def bool? (s : String) : Option Bool :=
  if ["1", "t", "T", "TRUE", "true", "True"].contains s then some true
  else if ["0", "f", "F", "FALSE", "false", "False"].contains s then some false
  else none

/-- The value that a text denotes for the flag. -/
def value (f : Flag) (s : String) : Except FlagError FlagValue :=
  match f.kind with
  | .text => .ok (.text s)
  | .switch =>
    match bool? s with
    | some b => .ok (.switch b)
    | none =>
      .error (.badValue f s ("strconv.ParseBool: parsing " ++ Text.quote s ++ ": invalid syntax"))
  | .integer =>
    match Integer.read s with
    | .ok n => .ok (.integer n)
    | .error e => .error (.badValue f s (e.message s))

end Flag

/-- The text of the error. -/
def FlagError.message : FlagError → String
  | badForm argument => "bad flag syntax: " ++ argument
  | unknown name => "unknown flag: --" ++ name
  | unknownLetter letter group =>
    "unknown shorthand flag: " ++ Text.quoteChar letter ++ " in -" ++ Utf8.decode group
  | noValue argument => "flag needs an argument: " ++ argument
  | noLetterValue letter group =>
    "flag needs an argument: " ++ Text.quoteChar letter ++ " in -" ++ Utf8.decode group
  | badValue flag value cause =>
    "invalid argument " ++ Text.quote value ++ " for " ++ Text.quote flag.label ++ " flag: " ++ cause
  | helpRequested => "pflag: help requested"

/-- The flag with a long name. -/
def findFlag? (flags : List Flag) (name : String) : Option Flag :=
  flags.find? fun f => f.name == name

/-- The flag with a letter. -/
def findLetter? (flags : List Flag) (letter : Char) : Option Flag :=
  flags.find? fun f => f.letter == some letter

/-- Arguments sorted into flags and the rest. -/
structure Arguments where
  /-- The positional arguments. -/
  positional : List String := []
  /-- The flags with the values they were given, last one first. -/
  given : List (String × FlagValue) := []
deriving Repr

namespace Arguments

/-- Give a value to a flag. -/
def give (a : Arguments) (f : Flag) (value : String) : Except FlagError Arguments := do
  return { a with given := (f.name, ← f.value value) :: a.given }

/-- The last value that a flag was given. -/
def value? (a : Arguments) (name : String) : Option FlagValue :=
  (a.given.find? fun g => g.1 == name).map (·.2)

/-- The text of a flag. -/
def textD (a : Arguments) (name default : String) : String :=
  match a.value? name with
  | some (.text s) => s
  | _ => default

/-- The switch is on. -/
def isOn (a : Arguments) (name : String) : Bool :=
  match a.value? name with
  | some (.switch b) => b
  | _ => false

/-- The number of a flag, if it was given. -/
def integer? (a : Arguments) (name : String) : Option Int :=
  match a.value? name with
  | some (.integer n) => some n
  | _ => none

end Arguments

/-- A flag that waits for the next argument, with the error in case there is none. -/
structure Waiting where
  /-- The flag. -/
  flag : Flag
  /-- The error if the arguments end here. -/
  error : FlagError

/-- Read a flag with a long name, given without its dashes. -/
def readLong (flags : List Flag) (argument body : String) (a : Arguments) :
    Except FlagError (Arguments × Option Waiting) := do
  if body.isEmpty || body.startsWith "-" || body.startsWith "=" then throw (.badForm argument)
  let name := String.ofList (body.toList.takeWhile (· != '='))
  let some flag := findFlag? flags name
    | throw (if name == "help" then .helpRequested else .unknown name)
  if body.contains '=' then
    let value := String.ofList ((body.toList.dropWhile (· != '=')).drop 1)
    return (← a.give flag value, none)
  else if flag.isSwitch then return (← a.give flag "true", none)
  else return (a, some ⟨flag, .noValue argument⟩)

/-- The byte of an equals sign. -/
def equalsByte : UInt8 := 0x3D

/-- What every group of letters that is not meant for this program starts with. -/
def foreignGroup : List UInt8 := Utf8.bytes "test."

/-- Read a group of letters, given without its dash. -/
def readGroup (flags : List Flag) (a : Arguments) :
    List UInt8 → Except FlagError (Arguments × Option Waiting)
  | [] => .ok (a, none)
  | b :: rest =>
    if foreignGroup.isPrefixOf (b :: rest) then .ok (a, none)
    else
      let letter := Char.ofNat b.toNat
      match findLetter? flags letter with
      | none =>
        .error (if letter == 'h' then .helpRequested else .unknownLetter letter (b :: rest))
      | some flag =>
        if rest.head? == some equalsByte && 1 < rest.length then
          (a.give flag (Utf8.decode (rest.drop 1))).map fun a => (a, none)
        else if flag.isSwitch then
          match a.give flag "true" with
          | .ok a => readGroup flags a rest
          | .error e => .error e
        else if rest.isEmpty then .ok (a, some ⟨flag, .noLetterValue letter (b :: rest)⟩)
        else (a.give flag (Utf8.decode rest)).map fun a => (a, none)

/-- Read arguments one by one; `waiting` is a flag that takes the next one as its value. -/
def readArguments (flags : List Flag) (a : Arguments) (waiting : Option Waiting) :
    List String → Except FlagError Arguments
  | [] =>
    match waiting with
    | some w => .error w.error
    | none => .ok { a with positional := a.positional.reverse }
  | s :: rest =>
    match waiting with
    | some w =>
      match a.give w.flag s with
      | .ok a => readArguments flags a none rest
      | .error e => .error e
    | none =>
      if s == "--" then .ok { a with positional := a.positional.reverse ++ rest }
      else if s == "-" || !s.startsWith "-" then
        readArguments flags { a with positional := s :: a.positional } none rest
      else
        let read :=
          if s.startsWith "--" then readLong flags s (String.ofList (s.toList.drop 2)) a
          else readGroup flags a ((Utf8.bytes s).drop 1)
        match read with
        | .ok (a, waiting) => readArguments flags a waiting rest
        | .error e => .error e

/-- Sort arguments into flags and the rest. -/
def parseArguments (flags : List Flag) (arguments : List String) : Except FlagError Arguments :=
  readArguments flags {} none arguments

end Fluxion.CommandLine
