import EventRelay.Text.Blank
import EventRelay.Text.Decimal

/-!
# Which records are shown

A filter is a list of directives between commas. A directive is a level for everything, a target at
every level, or a target and a level. Of the directives whose target begins a record's target the
longest decides, of two for one target the later. Directives about spans are allowed and select
none of our records.
-/

namespace EventRelay.Journal

/-- How important a record is. -/
inductive Level
  | error
  | warn
  | info
  | debug
  | trace
  deriving DecidableEq

namespace Level

/-- All levels, the most important first. -/
def all : List Level := [.error, .warn, .info, .debug, .trace]

/-- The place of a level, from one. -/
def rank : Level → Nat
  | .error => 1
  | .warn => 2
  | .info => 3
  | .debug => 4
  | .trace => 5

/-- The name of a level. -/
def name : Level → String
  | .error => "ERROR"
  | .warn => "WARN"
  | .info => "INFO"
  | .debug => "DEBUG"
  | .trace => "TRACE"

/-- The level that a name in any case stands for. -/
def ofName? (s : String) : Option Level :=
  all.find? fun l => l.name.toList = s.toList.map Char.toUpper

end Level

/-- How many levels a text lets through: a name of a level, `off`, or a number up to five. -/
def depth? (cs : List Char) : Option Nat :=
  let digits := match cs with
    | '+' :: rest => rest
    | rest => rest
  match Text.Decimal.natural? digits with
  | some n => if n ≤ 5 then some n else none
  | none =>
    match Level.ofName? (String.ofList cs) with
    | some l => some l.rank
    | none => if cs.map Char.toLower = "off".toList then some 0 else none

/-- A directive: the records whose target begins with `target`, as far as `depth` goes. -/
structure Directive where
  target : Option (List Char)
  depth : Nat
  /-- Whether it is about spans, and so about none of our records. -/
  onSpans : Bool
  deriving DecidableEq

/-- Code points beyond ASCII that are neither letters nor figures, as closed ranges. -/
def markRanges : List (Nat × Nat) :=
  [(0x80, 0xA9), (0xAB, 0xB1), (0xB4, 0xB4), (0xB6, 0xB8), (0xBB, 0xBB), (0xBF, 0xBF),
   (0xD7, 0xD7), (0xF7, 0xF7), (0x300, 0x344), (0x346, 0x36F), (0x2000, 0x206F), (0x20A0, 0x20CF),
   (0x2190, 0x245F), (0x2500, 0x2775), (0x2794, 0x2BFF), (0x3000, 0x3004), (0x3008, 0x3020),
   (0xE000, 0xF8FF), (0xFE00, 0xFE6F), (0xFF01, 0xFF0F), (0xFFE0, 0xFFFF), (0x1F000, 0x1F0FF),
   (0x1F300, 0x1FAFF), (0xE0000, 0x10FFFF)]

/-- Whether a character is a letter or a figure. -/
def isWordChar (c : Char) : Bool :=
  if c.toNat < 0x80 then c.isAlphanum
  else !markRanges.any fun (lo, hi) => lo ≤ c.toNat && c.toNat ≤ hi

/-- The level after an equals sign; every level when nothing follows. -/
def levelPart? (cs : List Char) : Option Nat := if cs.isEmpty then some 5 else depth? cs

/-- The fields of a span between braces, none of them empty, and what follows. -/
def spanFields? (cs : List Char) : Option (List Char) :=
  let inside := cs.takeWhile (· ≠ '\x7d')
  match cs.dropWhile (· ≠ '\x7d') with
  | [] => none
  | _ :: rest => if inside.isEmpty then none else some rest

/-- What follows the description of a span. -/
def afterSpan? (cs : List Char) : Option (List Char) :=
  match cs.dropWhile fun c => c ≠ ']' && c ≠ '\x7b' with
  | ']' :: rest => some rest
  | '\x7b' :: rest =>
    match spanFields? rest with
    | some (']' :: rest) => some rest
    | _ => none
  | _ => none

/-- The directive that a text is. Blanks around it decide where it ends but belong to it. -/
def directive? (text : List Char) : Option Directive :=
  let cs := Text.trim text
  match cs with
  | [] => none
  | c :: _ =>
    if c ≠ '[' && !isWordChar c && !(['-', ':', '_'].contains c) then none
    else
      let plain (c : Char) : Bool := c ≠ '=' && c ≠ '['
      let n := (cs.takeWhile plain).length
      match cs.drop n with
      | [] =>
        match depth? text with
        | some d => some ⟨none, d, false⟩
        | none => some ⟨some text, 5, false⟩
      | '=' :: _ => do
        let d ← levelPart? (text.drop (n + 1))
        some ⟨some (text.take n), d, false⟩
      | _ :: rest => do
        let rest ← afterSpan? rest
        match rest with
        | [] => some ⟨some (text.take n), 5, true⟩
        | '=' :: level => (levelPart? level).map fun d => ⟨some (text.take n), d, true⟩
        | _ => none

/-- A filter. -/
abbrev Filter := List Directive

/-- The filter that a text is. -/
def Filter.parse? (s : String) : Option Filter :=
  ((s.toList.splitOn ',').filter (!·.isEmpty)).mapM directive?

/-- The length of a directive's target in bytes, more when there is a target at all. -/
def Directive.weight (d : Directive) : Nat :=
  match d.target with
  | some t => (String.ofList t).utf8ByteSize + 1
  | none => 0

/-- Whether a directive is about a target. -/
def Directive.covers (d : Directive) (target : String) : Bool :=
  !d.onSpans && match d.target with
    | some t => t.isPrefixOf target.toList
    | none => true

/-- The directive that decides on a target. -/
def Filter.deciding? (f : Filter) (target : String) : Option Directive :=
  (f.filter (·.covers target)).foldl (fun best d =>
    match best with
    | none => some d
    | some b => if b.weight ≤ d.weight then some d else some b) none

/-- Whether records of a level are shown for a target. -/
def Filter.shows (f : Filter) (target : String) (level : Level) : Bool :=
  match f.deciding? target with
  | some d => level.rank ≤ d.depth
  | none => false

end EventRelay.Journal
