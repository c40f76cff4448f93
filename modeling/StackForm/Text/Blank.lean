/-!
# `StackForm.Text.Blank`: white space

The characters with the Unicode property `White_Space`, and the removal of such
characters from the ends of a text. Zero-width characters do not have the property.
-/

set_option autoImplicit false

namespace StackForm.Text

/-- Whether a character is white space. -/
def isBlank (c : Char) : Bool :=
  (9 ≤ c.toNat && c.toNat ≤ 13) || c.toNat == 0x20 || c.toNat == 0x85 || c.toNat == 0xA0 ||
    c.toNat == 0x1680 || (0x2000 ≤ c.toNat && c.toNat ≤ 0x200A) || c.toNat == 0x2028 ||
    c.toNat == 0x2029 || c.toNat == 0x202F || c.toNat == 0x205F || c.toNat == 0x3000

/-- Removes white space from the end. -/
def trimEnd (cs : List Char) : List Char := (cs.reverse.dropWhile isBlank).reverse

/-- Removes white space from both ends. -/
def trim (cs : List Char) : List Char := trimEnd (cs.dropWhile isBlank)

end StackForm.Text
