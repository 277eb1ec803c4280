import EventRelay.Url.Host

/-!
# The scheme of a URL with a host

`scheme?` gives the scheme of a well-formed URL of one of the schemes that need a host. Such a URL
may have any number of slashes or backslashes after the colon; blanks and control characters around
it and tabs and line ends inside it do not count.
-/

namespace EventRelay.Url

/-- The schemes that need a host. -/
def hostSchemes : List String := ["http", "https", "ws", "wss"]

/-- Whether a character ends the host and the user before it. -/
def endsAuthority (c : Char) : Bool := c = '/' || c = '\\' || c = '?' || c = '#'

/-- The text that counts: without the blanks and control characters around it and without tabs and
line ends. -/
def clean (cs : List Char) : List Char :=
  let outer (c : Char) : Bool := c.toNat ≤ 0x20
  let inside := ((cs.dropWhile outer).reverse.dropWhile outer).reverse
  inside.filter fun c => c ≠ '\t' && c ≠ '\n' && c ≠ '\r'

/-- The scheme in lower case and the text after its colon. -/
def splitScheme (cs : List Char) : Option (String × List Char) :=
  let part (c : Char) : Bool := c.isAlphanum || c = '+' || c = '-' || c = '.'
  match cs with
  | [] => none
  | c :: _ =>
    if !c.isAlpha then none
    else
      match cs.dropWhile part with
      | ':' :: rest => some (String.ofList ((cs.takeWhile part).map Char.toLower), rest)
      | _ => none

/-- The text after the last at sign, or all of it. -/
def afterUser (cs : List Char) : List Char := (cs.reverse.takeWhile (· ≠ '@')).reverse

/-- The host and, after the first colon outside brackets, the port. -/
def splitPort : (bracket : Bool) → List Char → List Char × Option (List Char)
  | _, [] => ([], none)
  | bracket, c :: cs =>
    if c = ':' && !bracket then ([], some cs)
    else
      let (host, port) := splitPort (c = '[' || (bracket && c ≠ ']')) cs
      (c :: host, port)

/-- Whether a text is a port: digits of a number of 16 bits, or nothing. -/
def isPort (cs : List Char) : Bool :=
  cs.all Text.Decimal.isDigit && Text.Decimal.value cs < UInt16.size

/-- Whether a user, a host and a port stand at the start of a text. -/
def isAuthority (cs : List Char) : Bool :=
  let (host, port) := splitPort false (afterUser (cs.takeWhile fun c => !endsAuthority c))
  Host.isValid host && isPort (port.getD [])

/-- The scheme of a well-formed URL of a scheme that needs a host. -/
def scheme? (url : String) : Option String := do
  let (scheme, rest) ← splitScheme (clean url.toList)
  let authority := rest.dropWhile fun c => c = '/' || c = '\\'
  if hostSchemes.contains scheme && isAuthority authority then some scheme else none

end EventRelay.Url
