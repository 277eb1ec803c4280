import EventRelay.Environment
import EventRelay.Url.Host

/-!
# The address of the metrics server

The server listens where it is told. Inside a container it listens on every interface instead, on
the port it is told, or on the usual one when it is told none.
-/

namespace EventRelay.Metrics

/-- Where the server listens unless it is told. -/
def defaultAddress : String := "127.0.0.1:8081"

/-- Why the server cannot listen. -/
inductive BindError
  /-- There is no colon before a port. -/
  | noPort
  /-- The port is no number of 16 bits. -/
  | badPort
  /-- The host is no address and has none. -/
  | unknownHost
  deriving DecidableEq

/-- The text of the error. -/
def BindError.message : BindError → String
  | .noPort => "invalid socket address"
  | .badPort => "invalid port value"
  | .unknownHost => "failed to lookup address information: Name or service not known"

/-- The characters before and after the last colon. -/
def splitLastColon (cs : List Char) : Option (List Char × List Char) :=
  if cs.contains ':' then
    let port := (cs.reverse.takeWhile (· ≠ ':')).reverse
    some (cs.take (cs.length - port.length - 1), port)
  else none

/-- Where the server listens when it is told `address`. -/
def effectiveAddress (env : Environment) (address : String) : String :=
  if env.get? "IN_DOCKER" = some "true" then
    match splitLastColon address.toList with
    | some (_, port) => "0.0.0.0:" ++ String.ofList port
    | none => "0.0.0.0:8081"
  else address

/-- The port that a text names; a plus sign may stand in front. -/
def port? (cs : List Char) : Option Nat := do
  let digits := match cs with
    | '+' :: rest => rest
    | rest => rest
  let n ← Text.Decimal.natural? digits
  if n < UInt16.size then some n else none

/-- Whether a host is known without asking anyone: an address, or the machine itself. -/
def isLocalHost (cs : List Char) : Bool :=
  cs = "localhost".toList || Url.Host.isSixteenByteAddress cs ||
    (!cs.isEmpty && Url.Host.isFourByteAddress cs) ||
    match cs with
    | '[' :: rest => rest.getLast? = some ']' && Url.Host.isSixteenByteAddress rest.dropLast
    | _ => false

/-- Listens at an address, or says why not. -/
def bind (env : Environment) (address : String) : Except BindError Unit :=
  match splitLastColon (effectiveAddress env address).toList with
  | none => .error .noPort
  | some (host, port) =>
    match port? port with
    | none => .error .badPort
    | some _ => if isLocalHost host then .ok () else .error .unknownHost

end EventRelay.Metrics
