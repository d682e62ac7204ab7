import Fluxion.CommandLine.Flags
import Fluxion.Server
import Fluxion.Settings.Load

/-!
# Starting the server

Before the server listens, its flags are read, its settings loaded and its address checked.
-/

namespace Fluxion.Server

/-- What is wrong with an address. -/
inductive AddressError where
  /-- The host and the service cannot be told apart. -/
  | form (address reason : String)
  /-- No service has this name. -/
  | unknownService (name : String)
  /-- The number of the service is not between 0 and 65535. -/
  | invalidService (name : String)
deriving DecidableEq, Repr

/-- The text of the error. -/
def AddressError.message : AddressError → String
  | form address reason => "address " ++ address ++ ": " ++ reason
  | unknownService name => "lookup tcp/" ++ name ++ ": unknown port"
  | invalidService name => "address " ++ name ++ ": invalid port"

/-- Split an address at its last colon into host and service. A host that contains colons stands in
brackets. -/
def splitAddress (address : String) : Except AddressError (String × String) :=
  let cs := address.toList
  let fail (reason : String) : Except AddressError (String × String) :=
    .error (.form address reason)
  let beforeLast := (cs.reverse.dropWhile (· != ':')).drop 1 |>.reverse
  let afterLast := (cs.reverse.takeWhile (· != ':')).reverse
  if !cs.contains ':' then fail "missing port in address"
  else if cs.head? == some '[' then
    match cs.dropWhile (· != ']') with
    | [] => fail "missing ']' in address"
    | _ :: rest =>
      let host := (cs.takeWhile (· != ']')).drop 1
      match rest with
      | [] => fail "missing port in address"
      | ':' :: after =>
        if after.contains ':' then fail "too many colons in address"
        else if host.contains '[' || after.contains '[' then fail "unexpected '[' in address"
        else if after.contains ']' then fail "unexpected ']' in address"
        else .ok (String.ofList host, String.ofList after)
      | _ =>
        if rest.contains ':' && (rest.reverse.dropWhile (· != ':')).length == 1 then
          fail "too many colons in address"
        else fail "missing port in address"
  else if beforeLast.contains ':' then fail "too many colons in address"
  else if cs.contains '[' then fail "unexpected '[' in address"
  else if cs.contains ']' then fail "unexpected ']' in address"
  else .ok (String.ofList beforeLast, String.ofList afterLast)

/-- The well-known services that the server may be asked to use, with their numbers. -/
def services : List (String × Nat) := [("http", 80), ("https", 443), ("domain", 53), ("ftp", 21)]

/-- The number of a service that is given by its number or its name. -/
def serviceNumber (name : String) : Except AddressError Nat :=
  let (negative, digits) :=
    match name.toList with
    | '-' :: rest => (true, rest)
    | '+' :: rest => (false, rest)
    | cs => (false, cs)
  if digits.all Char.isDigit then
    let n := Nat.ofDigitChars 10 digits 0
    if (negative && n != 0) || 65535 < n then .error (.invalidService name) else .ok n
  else
    match services.find? fun s => s.1 == name with
    | some s => .ok s.2
    | none => .error (.unknownService name)

/-- The host to listen on and the number of the service; without an address the web is meant. -/
def listenAddress (address : String) : Except AddressError (String × Nat) := do
  let (host, service) ← splitAddress (if address.isEmpty then ":http" else address)
  return (host, ← serviceNumber service)

/-- Why the server does not start. -/
inductive LaunchError where
  /-- The flags cannot be read. -/
  | flags (cause : CommandLine.FlagError)
  /-- The settings cannot be loaded. -/
  | settings (cause : Settings.LoadError)
  /-- The log cannot be set up. -/
  | log (cause : SettingsError)
  /-- The server cannot listen at the address. -/
  | address (cause : AddressError)

/-- The text of the error. -/
def LaunchError.message : LaunchError → String
  | flags cause => cause.message
  | settings cause => cause.message
  | log cause => cause.message
  | address cause => "serving: listen tcp: " ++ cause.message

/-- The flags of the server. -/
def launchFlags : List CommandLine.Flag :=
  [{ name := "addr", kind := .text }, { name := "config", kind := .text }]

/-- A server that is about to listen. -/
structure Launch where
  /-- Its settings. -/
  settings : Settings
  /-- The host to listen on. -/
  host : String
  /-- The number of the service to offer. -/
  service : Nat

/-- Everything that happens before the server listens. -/
def launch (tree : FileTree) (arguments : List String) : Except LaunchError Launch := do
  let a ← (CommandLine.parseArguments launchFlags arguments).mapError LaunchError.flags
  let loaded ← (Settings.loadOrFind tree (a.textD "config" "")).mapError LaunchError.settings
  let given := a.textD "addr" ""
  let settings := if given.isEmpty then loaded else { loaded with address := given }
  discard (settings.level.mapError LaunchError.log)
  let (host, service) ← (listenAddress settings.address).mapError LaunchError.address
  return ⟨settings, host, service⟩

end Fluxion.Server
