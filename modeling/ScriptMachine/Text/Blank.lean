/-!
# Blank characters

The characters trimmed from both ends of a numeric text: the Unicode property `White_Space`, and the byte
order mark.
-/

namespace ScriptMachine.Text

/-- Ranges of the property `White_Space`, first and last code point, in ascending order. -/
def whiteSpaceRanges : List (Nat × Nat) :=
  [(0x09, 0x0D), (0x20, 0x20), (0x85, 0x85), (0xA0, 0xA0), (0x1680, 0x1680), (0x2000, 0x200A),
    (0x2028, 0x2029), (0x202F, 0x202F), (0x205F, 0x205F), (0x3000, 0x3000)]

def byteOrderMark : Nat := 0xFEFF

def isBlank (c : Char) : Bool :=
  whiteSpaceRanges.any (fun r => r.1 ≤ c.toNat && c.toNat ≤ r.2) || c.toNat == byteOrderMark

def trimBlanks (cs : List Char) : List Char := (((cs.dropWhile isBlank).reverse).dropWhile isBlank).reverse

end ScriptMachine.Text
