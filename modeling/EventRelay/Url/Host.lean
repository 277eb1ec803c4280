import EventRelay.Text.Hex
import EventRelay.Text.Utf8
import EventRelay.Url.Punycode

/-!
# Hosts

A host is an IPv6 address in brackets, an IPv4 address or a domain. `Host.isValid` says whether a
text can stand for one, after percent escapes are decoded and the characters of a domain are
mapped.
-/

namespace EventRelay.Url.Host

/-- The bytes of a text with percent escapes decoded; a percent sign without two digits stays. -/
def percentDecode : Bytes → Bytes
  | 0x25 :: hi :: lo :: rest =>
    match Text.Hex.value? (Char.ofNat hi.toNat), Text.Hex.value? (Char.ofNat lo.toNat) with
    | some h, some l => UInt8.ofNat (h * 16 + l) :: percentDecode rest
    | _, _ => 0x25 :: percentDecode (hi :: lo :: rest)
  | b :: rest => b :: percentDecode rest
  | [] => []

/-- The parts of a text between full stops. -/
def labels (cs : List Char) : List (List Char) := cs.splitOn '.'

/-! ## Addresses of four bytes -/

/-- The number of a part; `none` when it is none, `some none` when it is too large. -/
def number? (cs : List Char) : Option (Option Nat) :=
  let (base, digits) : Nat × List Char := match cs with
    | '0' :: 'x' :: r => (16, r)
    | '0' :: 'X' :: r => (16, r)
    | '0' :: d :: r => (8, d :: r)
    | r => (10, r)
  if cs.isEmpty then none
  else do
    let n ← digits.foldlM (fun n c => do
      let d ← Text.Hex.value? c
      if d < base then some (n * base + d) else none) 0
    some (if n < UInt32.size then some n else none)

/-- The parts of a domain without an empty last one. -/
def parts (cs : List Char) : List (List Char) :=
  match (labels cs).reverse with
  | [] :: p :: rest => (p :: rest).reverse
  | all => all.reverse

/-- Whether the last part of a domain is a number, so that the domain must be an address. -/
def endsInNumber (cs : List Char) : Bool :=
  match (parts cs).getLast? with
  | some last => (!last.isEmpty && last.all Text.Decimal.isDigit) || (number? last).isSome
  | none => false

/-- Whether a text is an address of four bytes: up to four numbers, of which the last one fills the
bytes that are left. -/
def isFourByteAddress (cs : List Char) : Bool :=
  match (parts cs).mapM fun p => (number? p).join with
  | none => false
  | some ns =>
    match ns.reverse with
    | [] => false
    | last :: before =>
      ns.length ≤ 4 && before.all (· ≤ 255) && last < Bytes.capacity (5 - ns.length)

/-! ## Addresses of sixteen bytes -/

/-- Whether a text is four decimal numbers below 256 without leading zeros. -/
def isDottedQuad (cs : List Char) : Bool :=
  let ps := labels cs
  ps.length = 4 && ps.all fun p =>
    !p.isEmpty && p.length ≤ 3 && p.all Text.Decimal.isDigit && Text.Decimal.value p ≤ 255 &&
      (p.length = 1 || p.head? ≠ some '0')

/-- How many of the eight pieces a run of pieces between colons takes; a dotted quad may be last
where `tail` allows it and takes two. -/
def pieces? (tail : Bool) : List (List Char) → Option Nat
  | [] => some 0
  | [p] =>
    if p.contains '.' then if tail && isDottedQuad p then some 2 else none
    else if !p.isEmpty && p.length ≤ 4 && p.all Text.Hex.isDigit then some 1 else none
  | p :: ps =>
    if !p.isEmpty && p.length ≤ 4 && p.all Text.Hex.isDigit then (pieces? tail ps).map (· + 1)
    else none

/-- The text before and after the first pair of colons. -/
def splitPair : List Char → Option (List Char × List Char)
  | ':' :: ':' :: rest => some ([], rest)
  | c :: rest => (splitPair rest).map fun (a, b) => (c :: a, b)
  | [] => none

/-- The pieces of a run between colons; an empty run has none. -/
def run (cs : List Char) : List (List Char) := if cs.isEmpty then [] else cs.splitOn ':'

/-- Whether a text is an address of sixteen bytes. -/
def isSixteenByteAddress (cs : List Char) : Bool :=
  match splitPair cs with
  | none => pieces? true (run cs) = some 8
  | some (front, back) =>
    match pieces? false (run front), pieces? true (run back) with
    | some a, some b => a + b ≤ 7
    | _, _ => false

/-! ## Domains -/

/-- Characters that leave no trace in a domain. -/
def isIgnored (c : Char) : Bool :=
  [0xAD, 0x200B, 0x2060, 0x2064, 0xFEFF].contains c.toNat || (0xFE00 ≤ c.toNat && c.toNat ≤ 0xFE0F)

/-- Code points beyond ASCII that no domain holds, as closed ranges. -/
def refusedRanges : List (Nat × Nat) :=
  [(0x80, 0xA0), (0x1680, 0x1680), (0x2000, 0x200A), (0x200C, 0x200F), (0x2028, 0x202F),
   (0x205F, 0x205F), (0x2061, 0x2063), (0x2065, 0x206F), (0x3000, 0x3000), (0xE000, 0xF8FF),
   (0xFFF9, 0xFFFF), (0xE0000, 0x10FFFF)]

/-- The character that a character stands for in a domain: full-width forms are those of ASCII, and
the ideographic full stops are full stops. -/
def mapped (c : Char) : Char :=
  if 0xFF01 ≤ c.toNat ∧ c.toNat ≤ 0xFF5E then Char.ofNat (c.toNat - 0xFF01 + 0x21)
  else if c.toNat = 0x3002 ∨ c.toNat = 0xFF61 then '.'
  else c

/-- Whether a character may stand in a domain. -/
def isAllowed (c : Char) : Bool :=
  if c.toNat < 0x80 then
    0x20 < c.toNat && c.toNat ≠ 0x7F && !("%#/:<>?@[\\]^|".toList.contains c)
  else !refusedRanges.any fun (lo, hi) => lo ≤ c.toNat && c.toNat ≤ hi

/-- Whether a label is well formed: one that begins as an encoded one encodes some character beyond
ASCII, and one that allowed characters make up. -/
def isLabel (l : List Char) : Bool :=
  l.all isAllowed &&
    if "xn--".toList.isPrefixOf (l.map Char.toLower) then
      match Punycode.decode? (l.drop 4) with
      | some cs => cs.any (0x80 ≤ ·.toNat) && cs.all isAllowed
      | none => false
    else true

/-- The characters of a domain after decoding and mapping. -/
def domain (cs : List Char) : List Char :=
  let bytes := percentDecode (Text.Utf8.encode (String.ofList cs))
  ((Text.Utf8.decodeChars bytes).filter fun c => !isIgnored c).map mapped

/-- Whether a text stands for a host. -/
def isValid (cs : List Char) : Bool :=
  match cs with
  | [] => false
  | '[' :: rest =>
    match rest.reverse with
    | ']' :: inner => isSixteenByteAddress inner.reverse
    | _ => false
  | cs =>
    let d := domain cs
    !d.isEmpty && (labels d).all isLabel && (!endsInNumber d || isFourByteAddress d)

end EventRelay.Url.Host
