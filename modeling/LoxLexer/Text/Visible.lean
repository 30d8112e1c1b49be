/-!
# Characters that a log shows as they are

Controls, spaces other than the plain one, marks that combine with the character before them, format characters,
private-use characters and code points that are no characters do not show, or not as themselves; a log writes those by
number.  `hiddenRanges` lists them in ascending order, each range with both its ends.
-/
namespace LoxLexer

/-- The code points that do not show as themselves. -/
def hiddenRanges : List (Nat × Nat) :=
  [(0x0000, 0x001f), (0x007f, 0x00a0), (0x00ad, 0x00ad), (0x0300, 0x036f), (0x0483, 0x0489), (0x0591, 0x05bd),
   (0x0600, 0x0605), (0x0610, 0x061a), (0x061c, 0x061c), (0x064b, 0x065f), (0x06dd, 0x06dd), (0x070f, 0x070f),
   (0x1680, 0x1680), (0x180b, 0x180f), (0x1ab0, 0x1aff), (0x1dc0, 0x1dff), (0x2000, 0x200f), (0x2028, 0x202f),
   (0x205f, 0x206f), (0x20d0, 0x20ff), (0x302a, 0x302f), (0x3000, 0x3000), (0x3099, 0x309a), (0xe000, 0xf8ff),
   (0xfe00, 0xfe0f), (0xfe20, 0xfe2f), (0xfeff, 0xfeff), (0xfff0, 0xfffb), (0xfffe, 0xffff), (0xe0000, 0xe0fff),
   (0xf0000, 0x10ffff)]

def isVisible (c : Char) : Bool := hiddenRanges.all fun (first, last) => c.toNat < first || last < c.toNat

end LoxLexer
