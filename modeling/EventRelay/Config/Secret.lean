import EventRelay.Environment
import EventRelay.Secp256k1.Signing
import EventRelay.Text.Blank

/-!
# Secrets

A secret is written out or refers to an environment variable as `${NAME}`. It is shown as a fixed
text. As a signing key it is 32 bytes in hexadecimal that are a private key.
-/

namespace EventRelay

/-- A secret as it stands in a configuration. -/
structure Secret where
  text : String

/-- Why a secret yields no value or no key. -/
inductive SecretError
  | unset (name : String)
  | notHex
  | notAKey
  deriving DecidableEq

/-- The text of the error. -/
def SecretError.message : SecretError → String
  | .unset name => "environment variable '" ++ name ++ "' referenced by a secret is not set"
  | .notHex => "signing_key is not a 32-byte hex value"
  | .notAKey => "signing_key is not a valid private key"

namespace Secret

/-- What a secret is shown as. -/
def shown : String := "SecretValue(REDACTED)"

/-- Whether there is nothing but blanks. -/
def isEmpty (s : Secret) : Bool := Text.isBlankText s.text

/-- The variable that a text refers to. -/
def reference? (cs : List Char) : Option String :=
  match cs with
  | '$' :: '\x7b' :: rest =>
    match rest.reverse with
    | '\x7d' :: name => some (String.ofList name.reverse)
    | _ => none
  | _ => none

/-- The secret without blanks around it, or the text of the variable that it refers to. -/
def resolve (env : Environment) (s : Secret) : Except SecretError String :=
  let raw := Text.trim s.text.toList
  match reference? raw with
  | some name =>
    match env.get? name with
    | some v => .ok v
    | none => .error (.unset name)
  | none => .ok (String.ofList raw)

/-- The private key that a secret holds. -/
def key (env : Environment) (s : Secret) : Except SecretError Secp256k1.PrivateKey := do
  let text ← s.resolve env
  match Word.ofHex? (Text.trimmed text) with
  | none => throw .notHex
  | some w =>
    match Secp256k1.PrivateKey.ofWord? w with
    | some k => pure k
    | none => throw .notAKey

end Secret

end EventRelay
