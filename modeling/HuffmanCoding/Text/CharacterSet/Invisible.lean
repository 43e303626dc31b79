import HuffmanCoding.Text.CharacterSet

/-!
# Characters without a shape

The characters that have no shape that every reader sees alike: controls, characters that only
steer the layout, fillers and selectors that are drawn as nothing, characters for private use, and
all spaces and separators other than the common space. They are the categories Cc, Cf, Co, Zl, Zp
and Zs of Unicode 17 together with its property Default_Ignorable_Code_Point.
-/

set_option autoImplicit false
set_option relaxedAutoImplicit false

namespace HuffmanCoding.CharacterSet

/-- The characters without a shape of their own, other than the common space. -/
def invisible : CharacterSet where
  ranges := [(0x0, 0x1F), (0x7F, 0xA0), (0xAD, 0xAD), (0x34F, 0x34F), (0x600, 0x605),
    (0x61C, 0x61C), (0x6DD, 0x6DD), (0x70F, 0x70F), (0x890, 0x891), (0x8E2, 0x8E2),
    (0x115F, 0x1160), (0x1680, 0x1680), (0x17B4, 0x17B5), (0x180B, 0x180F), (0x2000, 0x200F),
    (0x2028, 0x202F), (0x205F, 0x2064), (0x2066, 0x206F), (0x3000, 0x3000), (0x3164, 0x3164),
    (0xE000, 0xF8FF), (0xFE00, 0xFE0F), (0xFEFF, 0xFEFF), (0xFFA0, 0xFFA0), (0xFFF9, 0xFFFB),
    (0x110BD, 0x110BD), (0x110CD, 0x110CD), (0x13430, 0x1343F), (0x1BCA0, 0x1BCA3),
    (0x1D173, 0x1D17A), (0xE0001, 0xE0001), (0xE0020, 0xE007F), (0xE0100, 0xE01EF),
    (0xF0000, 0xFFFFD), (0x100000, 0x10FFFD)]
  ascending := by decide +kernel

end HuffmanCoding.CharacterSet
