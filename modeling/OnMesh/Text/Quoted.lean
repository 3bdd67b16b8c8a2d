import OnMesh.Text.Digits

/-!
# Quoted text

Messages show a piece of input between quotes, with every character that leaves
no visible mark of its own written as an escape: `\t`, `\r`, `\n`, `\0` and the
backslash by their short forms, all others by their number in hexadecimal.
-/

namespace OnMesh.Quoted

/-- Code points that are shown by number: controls, formats, line and word
separators, marks that combine with the character before them, and private or
reserved code points. -/
def hiddenRanges : List (Nat × Nat) :=
  [(0x0000, 0x001F), (0x007F, 0x00A0), (0x00AD, 0x00AD), (0x0300, 0x036F),
    (0x0483, 0x0489), (0x0591, 0x05BD), (0x0600, 0x0605), (0x0610, 0x061A),
    (0x061C, 0x061C), (0x064B, 0x065F), (0x06DD, 0x06DD), (0x070F, 0x070F),
    (0x093C, 0x093C), (0x094D, 0x094D), (0x1680, 0x1680), (0x180B, 0x180F),
    (0x1AB0, 0x1ACE), (0x1DC0, 0x1DFF), (0x2000, 0x200F), (0x2028, 0x202F),
    (0x205F, 0x206F), (0x20D0, 0x20F0), (0x3000, 0x3000), (0x302A, 0x302F),
    (0x3099, 0x309A), (0xE000, 0xF8FF), (0xFE00, 0xFE0F), (0xFE20, 0xFE2F),
    (0xFEFF, 0xFEFF), (0xFFF0, 0xFFFB), (0xFFFE, 0xFFFF), (0x1D173, 0x1D17A),
    (0xE0000, 0x10FFFF)]

/-- Whether a character is shown by number. -/
def isHidden (c : Char) : Bool :=
  hiddenRanges.any fun r => r.1 ≤ c.toNat && c.toNat ≤ r.2

/-- One character between quotes of the given kind; the quote itself is
escaped. -/
def escape (quote c : Char) : List Char :=
  if c = '\t' then ['\\', 't']
  else if c = '\r' then ['\\', 'r']
  else if c = '\n' then ['\\', 'n']
  else if c = Char.ofNat 0 then ['\\', '0']
  else if c = '\\' || c = quote then ['\\', c]
  else if isHidden c then
    '\\' :: 'u' :: '\x7b' :: Digits.hex c.toNat ++ ['\x7d']
  else [c]

def text (s : String) : String :=
  String.ofList ('"' :: s.toList.flatMap (escape '"') ++ ['"'])

def letter (c : Char) : String :=
  String.ofList ('\'' :: escape '\'' c ++ ['\''])

end OnMesh.Quoted
