/-!
# Letters and digits of any script

`isAlphanumeric` knows the letters and digits of ASCII and, as blocks, the letters of the scripts
that names are usually written in.
-/

namespace EventRelay.Text

/-- Ranges of letters and digits, closed. -/
def alphanumericRanges : List (Nat × Nat) :=
  [(0x30, 0x39), (0x41, 0x5A), (0x61, 0x7A), (0xAA, 0xAA), (0xB2, 0xB3), (0xB5, 0xB5),
   (0xB9, 0xBA), (0xBC, 0xBE), (0xC0, 0xD6), (0xD8, 0xF6), (0xF8, 0x2C1), (0x370, 0x374),
   (0x376, 0x377), (0x37A, 0x37D), (0x37F, 0x37F), (0x386, 0x386), (0x388, 0x3FF),
   (0x400, 0x481), (0x48A, 0x52F), (0x531, 0x556), (0x561, 0x587), (0x5D0, 0x5EA),
   (0x620, 0x64A), (0x660, 0x669), (0x904, 0x939), (0xE01, 0xE30), (0x10A0, 0x10FF),
   (0x1100, 0x1248), (0x1E00, 0x1F15), (0x3041, 0x3096), (0x30A1, 0x30FA), (0x3400, 0x4DBF),
   (0x4E00, 0x9FFF), (0xAC00, 0xD7A3), (0xFF10, 0xFF19), (0xFF21, 0xFF3A), (0xFF41, 0xFF5A),
   (0x20000, 0x2A6DF)]

/-- Whether a character is a letter or a digit. -/
def isAlphanumeric (c : Char) : Bool :=
  alphanumericRanges.any fun (lo, hi) => lo ≤ c.toNat && c.toNat ≤ hi

end EventRelay.Text
