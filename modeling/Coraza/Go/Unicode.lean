import Coraza.Go.Utf8

/-!
# Letter case, as package `unicode` has it

`toLower` and `toUpper` are the simple case mappings, read from a table of
ranges in the form of `unicode.CaseRanges`: a range carries what to add for the
upper and for the lower case, and `upperLower` marks a range in which upper and
lower case alternate.  `simpleFold` walks the orbit of a rune under simple case
folding, the equivalence a regular expression uses under `(?i)`; `caseOrbit`
lists the steps that the mappings alone would get wrong.

What a byte-level search needs to know about these tables is how they meet
ASCII.  `toLower_ascii` says that besides the ASCII letters only U+0130 (capital
I with dot) and U+212A (Kelvin sign) have an ASCII lower case.
`asciiClass_iterate` says that the orbit of an ASCII letter stays in its two
cases, the Kelvin sign for `k` and U+017F (long s) for `s`.  The two statements
do not match: U+0130 goes to `i` under `toLower`, and no `i` folds to it.
-/

namespace Go

open List

/-- `unicode.UpperLower`, the mark of an alternating range. -/
def upperLower : Int := 0x110000

set_option maxRecDepth 4000 in
/-- `unicode.CaseRanges` without the title case: first and last rune, and what
to add for the upper and for the lower case. -/
def caseRanges : List (Nat × Nat × Int × Int) :=
  [(0x0041, 0x005A, 0, 32), (0x0061, 0x007A, -32, 0), (0x00B5, 0x00B5, 743, 0),
   (0x00C0, 0x00D6, 0, 32), (0x00D8, 0x00DE, 0, 32), (0x00E0, 0x00F6, -32, 0),
   (0x00F8, 0x00FE, -32, 0), (0x00FF, 0x00FF, 121, 0), (0x0100, 0x012F, upperLower, upperLower),
   (0x0130, 0x0130, 0, -199), (0x0131, 0x0131, -232, 0), (0x0132, 0x0137, upperLower, upperLower),
   (0x0139, 0x0148, upperLower, upperLower), (0x014A, 0x0177, upperLower, upperLower),
   (0x0178, 0x0178, 0, -121), (0x0179, 0x017E, upperLower, upperLower), (0x017F, 0x017F, -300, 0),
   (0x0180, 0x0180, 195, 0), (0x0181, 0x0181, 0, 210), (0x0182, 0x0185, upperLower, upperLower),
   (0x0186, 0x0186, 0, 206), (0x0187, 0x0188, upperLower, upperLower), (0x0189, 0x018A, 0, 205),
   (0x018B, 0x018C, upperLower, upperLower), (0x018E, 0x018E, 0, 79), (0x018F, 0x018F, 0, 202),
   (0x0190, 0x0190, 0, 203), (0x0191, 0x0192, upperLower, upperLower), (0x0193, 0x0193, 0, 205),
   (0x0194, 0x0194, 0, 207), (0x0195, 0x0195, 97, 0), (0x0196, 0x0196, 0, 211),
   (0x0197, 0x0197, 0, 209), (0x0198, 0x0199, upperLower, upperLower), (0x019A, 0x019A, 163, 0),
   (0x019C, 0x019C, 0, 211), (0x019D, 0x019D, 0, 213), (0x019E, 0x019E, 130, 0),
   (0x019F, 0x019F, 0, 214), (0x01A0, 0x01A5, upperLower, upperLower), (0x01A6, 0x01A6, 0, 218),
   (0x01A7, 0x01A8, upperLower, upperLower), (0x01A9, 0x01A9, 0, 218),
   (0x01AC, 0x01AD, upperLower, upperLower), (0x01AE, 0x01AE, 0, 218),
   (0x01AF, 0x01B0, upperLower, upperLower), (0x01B1, 0x01B2, 0, 217),
   (0x01B3, 0x01B6, upperLower, upperLower), (0x01B7, 0x01B7, 0, 219),
   (0x01B8, 0x01B9, upperLower, upperLower), (0x01BC, 0x01BD, upperLower, upperLower),
   (0x01BF, 0x01BF, 56, 0), (0x01C4, 0x01C4, 0, 2), (0x01C5, 0x01C5, -1, 1),
   (0x01C6, 0x01C6, -2, 0), (0x01C7, 0x01C7, 0, 2), (0x01C8, 0x01C8, -1, 1),
   (0x01C9, 0x01C9, -2, 0), (0x01CA, 0x01CA, 0, 2), (0x01CB, 0x01CB, -1, 1),
   (0x01CC, 0x01CC, -2, 0), (0x01CD, 0x01DC, upperLower, upperLower), (0x01DD, 0x01DD, -79, 0),
   (0x01DE, 0x01EF, upperLower, upperLower), (0x01F1, 0x01F1, 0, 2), (0x01F2, 0x01F2, -1, 1),
   (0x01F3, 0x01F3, -2, 0), (0x01F4, 0x01F5, upperLower, upperLower), (0x01F6, 0x01F6, 0, -97),
   (0x01F7, 0x01F7, 0, -56), (0x01F8, 0x021F, upperLower, upperLower), (0x0220, 0x0220, 0, -130),
   (0x0222, 0x0233, upperLower, upperLower), (0x023A, 0x023A, 0, 10795),
   (0x023B, 0x023C, upperLower, upperLower), (0x023D, 0x023D, 0, -163), (0x023E, 0x023E, 0, 10792),
   (0x023F, 0x0240, 10815, 0), (0x0241, 0x0242, upperLower, upperLower), (0x0243, 0x0243, 0, -195),
   (0x0244, 0x0244, 0, 69), (0x0245, 0x0245, 0, 71), (0x0246, 0x024F, upperLower, upperLower),
   (0x0250, 0x0250, 10783, 0), (0x0251, 0x0251, 10780, 0), (0x0252, 0x0252, 10782, 0),
   (0x0253, 0x0253, -210, 0), (0x0254, 0x0254, -206, 0), (0x0256, 0x0257, -205, 0),
   (0x0259, 0x0259, -202, 0), (0x025B, 0x025B, -203, 0), (0x025C, 0x025C, 42319, 0),
   (0x0260, 0x0260, -205, 0), (0x0261, 0x0261, 42315, 0), (0x0263, 0x0263, -207, 0),
   (0x0265, 0x0265, 42280, 0), (0x0266, 0x0266, 42308, 0), (0x0268, 0x0268, -209, 0),
   (0x0269, 0x0269, -211, 0), (0x026A, 0x026A, 42308, 0), (0x026B, 0x026B, 10743, 0),
   (0x026C, 0x026C, 42305, 0), (0x026F, 0x026F, -211, 0), (0x0271, 0x0271, 10749, 0),
   (0x0272, 0x0272, -213, 0), (0x0275, 0x0275, -214, 0), (0x027D, 0x027D, 10727, 0),
   (0x0280, 0x0280, -218, 0), (0x0282, 0x0282, 42307, 0), (0x0283, 0x0283, -218, 0),
   (0x0287, 0x0287, 42282, 0), (0x0288, 0x0288, -218, 0), (0x0289, 0x0289, -69, 0),
   (0x028A, 0x028B, -217, 0), (0x028C, 0x028C, -71, 0), (0x0292, 0x0292, -219, 0),
   (0x029D, 0x029D, 42261, 0), (0x029E, 0x029E, 42258, 0), (0x0345, 0x0345, 84, 0),
   (0x0370, 0x0373, upperLower, upperLower), (0x0376, 0x0377, upperLower, upperLower),
   (0x037B, 0x037D, 130, 0), (0x037F, 0x037F, 0, 116), (0x0386, 0x0386, 0, 38),
   (0x0388, 0x038A, 0, 37), (0x038C, 0x038C, 0, 64), (0x038E, 0x038F, 0, 63),
   (0x0391, 0x03A1, 0, 32), (0x03A3, 0x03AB, 0, 32), (0x03AC, 0x03AC, -38, 0),
   (0x03AD, 0x03AF, -37, 0), (0x03B1, 0x03C1, -32, 0), (0x03C2, 0x03C2, -31, 0),
   (0x03C3, 0x03CB, -32, 0), (0x03CC, 0x03CC, -64, 0), (0x03CD, 0x03CE, -63, 0),
   (0x03CF, 0x03CF, 0, 8), (0x03D0, 0x03D0, -62, 0), (0x03D1, 0x03D1, -57, 0),
   (0x03D5, 0x03D5, -47, 0), (0x03D6, 0x03D6, -54, 0), (0x03D7, 0x03D7, -8, 0),
   (0x03D8, 0x03EF, upperLower, upperLower), (0x03F0, 0x03F0, -86, 0), (0x03F1, 0x03F1, -80, 0),
   (0x03F2, 0x03F2, 7, 0), (0x03F3, 0x03F3, -116, 0), (0x03F4, 0x03F4, 0, -60),
   (0x03F5, 0x03F5, -96, 0), (0x03F7, 0x03F8, upperLower, upperLower), (0x03F9, 0x03F9, 0, -7),
   (0x03FA, 0x03FB, upperLower, upperLower), (0x03FD, 0x03FF, 0, -130), (0x0400, 0x040F, 0, 80),
   (0x0410, 0x042F, 0, 32), (0x0430, 0x044F, -32, 0), (0x0450, 0x045F, -80, 0),
   (0x0460, 0x0481, upperLower, upperLower), (0x048A, 0x04BF, upperLower, upperLower),
   (0x04C0, 0x04C0, 0, 15), (0x04C1, 0x04CE, upperLower, upperLower), (0x04CF, 0x04CF, -15, 0),
   (0x04D0, 0x052F, upperLower, upperLower), (0x0531, 0x0556, 0, 48), (0x0561, 0x0586, -48, 0),
   (0x10A0, 0x10C5, 0, 7264), (0x10C7, 0x10C7, 0, 7264), (0x10CD, 0x10CD, 0, 7264),
   (0x10D0, 0x10FA, 3008, 0), (0x10FD, 0x10FF, 3008, 0), (0x13A0, 0x13EF, 0, 38864),
   (0x13F0, 0x13F5, 0, 8), (0x13F8, 0x13FD, -8, 0), (0x1C80, 0x1C80, -6254, 0),
   (0x1C81, 0x1C81, -6253, 0), (0x1C82, 0x1C82, -6244, 0), (0x1C83, 0x1C84, -6242, 0),
   (0x1C85, 0x1C85, -6243, 0), (0x1C86, 0x1C86, -6236, 0), (0x1C87, 0x1C87, -6181, 0),
   (0x1C88, 0x1C88, 35266, 0), (0x1C90, 0x1CBA, 0, -3008), (0x1CBD, 0x1CBF, 0, -3008),
   (0x1D79, 0x1D79, 35332, 0), (0x1D7D, 0x1D7D, 3814, 0), (0x1D8E, 0x1D8E, 35384, 0),
   (0x1E00, 0x1E95, upperLower, upperLower), (0x1E9B, 0x1E9B, -59, 0), (0x1E9E, 0x1E9E, 0, -7615),
   (0x1EA0, 0x1EFF, upperLower, upperLower), (0x1F00, 0x1F07, 8, 0), (0x1F08, 0x1F0F, 0, -8),
   (0x1F10, 0x1F15, 8, 0), (0x1F18, 0x1F1D, 0, -8), (0x1F20, 0x1F27, 8, 0), (0x1F28, 0x1F2F, 0, -8),
   (0x1F30, 0x1F37, 8, 0), (0x1F38, 0x1F3F, 0, -8), (0x1F40, 0x1F45, 8, 0), (0x1F48, 0x1F4D, 0, -8),
   (0x1F51, 0x1F51, 8, 0), (0x1F53, 0x1F53, 8, 0), (0x1F55, 0x1F55, 8, 0), (0x1F57, 0x1F57, 8, 0),
   (0x1F59, 0x1F59, 0, -8), (0x1F5B, 0x1F5B, 0, -8), (0x1F5D, 0x1F5D, 0, -8),
   (0x1F5F, 0x1F5F, 0, -8), (0x1F60, 0x1F67, 8, 0), (0x1F68, 0x1F6F, 0, -8),
   (0x1F70, 0x1F71, 74, 0), (0x1F72, 0x1F75, 86, 0), (0x1F76, 0x1F77, 100, 0),
   (0x1F78, 0x1F79, 128, 0), (0x1F7A, 0x1F7B, 112, 0), (0x1F7C, 0x1F7D, 126, 0),
   (0x1F80, 0x1F87, 8, 0), (0x1F88, 0x1F8F, 0, -8), (0x1F90, 0x1F97, 8, 0), (0x1F98, 0x1F9F, 0, -8),
   (0x1FA0, 0x1FA7, 8, 0), (0x1FA8, 0x1FAF, 0, -8), (0x1FB0, 0x1FB1, 8, 0), (0x1FB3, 0x1FB3, 9, 0),
   (0x1FB8, 0x1FB9, 0, -8), (0x1FBA, 0x1FBB, 0, -74), (0x1FBC, 0x1FBC, 0, -9),
   (0x1FBE, 0x1FBE, -7205, 0), (0x1FC3, 0x1FC3, 9, 0), (0x1FC8, 0x1FCB, 0, -86),
   (0x1FCC, 0x1FCC, 0, -9), (0x1FD0, 0x1FD1, 8, 0), (0x1FD8, 0x1FD9, 0, -8),
   (0x1FDA, 0x1FDB, 0, -100), (0x1FE0, 0x1FE1, 8, 0), (0x1FE5, 0x1FE5, 7, 0),
   (0x1FE8, 0x1FE9, 0, -8), (0x1FEA, 0x1FEB, 0, -112), (0x1FEC, 0x1FEC, 0, -7),
   (0x1FF3, 0x1FF3, 9, 0), (0x1FF8, 0x1FF9, 0, -128), (0x1FFA, 0x1FFB, 0, -126),
   (0x1FFC, 0x1FFC, 0, -9), (0x2126, 0x2126, 0, -7517), (0x212A, 0x212A, 0, -8383),
   (0x212B, 0x212B, 0, -8262), (0x2132, 0x2132, 0, 28), (0x214E, 0x214E, -28, 0),
   (0x2160, 0x216F, 0, 16), (0x2170, 0x217F, -16, 0), (0x2183, 0x2184, upperLower, upperLower),
   (0x24B6, 0x24CF, 0, 26), (0x24D0, 0x24E9, -26, 0), (0x2C00, 0x2C2F, 0, 48),
   (0x2C30, 0x2C5F, -48, 0), (0x2C60, 0x2C61, upperLower, upperLower), (0x2C62, 0x2C62, 0, -10743),
   (0x2C63, 0x2C63, 0, -3814), (0x2C64, 0x2C64, 0, -10727), (0x2C65, 0x2C65, -10795, 0),
   (0x2C66, 0x2C66, -10792, 0), (0x2C67, 0x2C6C, upperLower, upperLower),
   (0x2C6D, 0x2C6D, 0, -10780), (0x2C6E, 0x2C6E, 0, -10749), (0x2C6F, 0x2C6F, 0, -10783),
   (0x2C70, 0x2C70, 0, -10782), (0x2C72, 0x2C73, upperLower, upperLower),
   (0x2C75, 0x2C76, upperLower, upperLower), (0x2C7E, 0x2C7F, 0, -10815),
   (0x2C80, 0x2CE3, upperLower, upperLower), (0x2CEB, 0x2CEE, upperLower, upperLower),
   (0x2CF2, 0x2CF3, upperLower, upperLower), (0x2D00, 0x2D25, -7264, 0), (0x2D27, 0x2D27, -7264, 0),
   (0x2D2D, 0x2D2D, -7264, 0), (0xA640, 0xA66D, upperLower, upperLower),
   (0xA680, 0xA69B, upperLower, upperLower), (0xA722, 0xA72F, upperLower, upperLower),
   (0xA732, 0xA76F, upperLower, upperLower), (0xA779, 0xA77C, upperLower, upperLower),
   (0xA77D, 0xA77D, 0, -35332), (0xA77E, 0xA787, upperLower, upperLower),
   (0xA78B, 0xA78C, upperLower, upperLower), (0xA78D, 0xA78D, 0, -42280),
   (0xA790, 0xA793, upperLower, upperLower), (0xA794, 0xA794, 48, 0),
   (0xA796, 0xA7A9, upperLower, upperLower), (0xA7AA, 0xA7AA, 0, -42308),
   (0xA7AB, 0xA7AB, 0, -42319), (0xA7AC, 0xA7AC, 0, -42315), (0xA7AD, 0xA7AD, 0, -42305),
   (0xA7AE, 0xA7AE, 0, -42308), (0xA7B0, 0xA7B0, 0, -42258), (0xA7B1, 0xA7B1, 0, -42282),
   (0xA7B2, 0xA7B2, 0, -42261), (0xA7B3, 0xA7B3, 0, 928), (0xA7B4, 0xA7C3, upperLower, upperLower),
   (0xA7C4, 0xA7C4, 0, -48), (0xA7C5, 0xA7C5, 0, -42307), (0xA7C6, 0xA7C6, 0, -35384),
   (0xA7C7, 0xA7CA, upperLower, upperLower), (0xA7D0, 0xA7D1, upperLower, upperLower),
   (0xA7D6, 0xA7D9, upperLower, upperLower), (0xA7F5, 0xA7F6, upperLower, upperLower),
   (0xAB53, 0xAB53, -928, 0), (0xAB70, 0xABBF, -38864, 0), (0xFF21, 0xFF3A, 0, 32),
   (0xFF41, 0xFF5A, -32, 0), (0x10400, 0x10427, 0, 40), (0x10428, 0x1044F, -40, 0),
   (0x104B0, 0x104D3, 0, 40), (0x104D8, 0x104FB, -40, 0), (0x10570, 0x1057A, 0, 39),
   (0x1057C, 0x1058A, 0, 39), (0x1058C, 0x10592, 0, 39), (0x10594, 0x10595, 0, 39),
   (0x10597, 0x105A1, -39, 0), (0x105A3, 0x105B1, -39, 0), (0x105B3, 0x105B9, -39, 0),
   (0x105BB, 0x105BC, -39, 0), (0x10C80, 0x10CB2, 0, 64), (0x10CC0, 0x10CF2, -64, 0),
   (0x118A0, 0x118BF, 0, 32), (0x118C0, 0x118DF, -32, 0), (0x16E40, 0x16E5F, 0, 32),
   (0x16E60, 0x16E7F, -32, 0), (0x1E900, 0x1E921, 0, 34), (0x1E922, 0x1E943, -34, 0)]

/-- `unicode.To` on the tables, for the lower or the upper case. -/
def convertCase (lower : Bool) (r : Nat) : Nat :=
  match caseRanges.find? (fun c => decide (c.1 ≤ r) && decide (r ≤ c.2.1)) with
  | none => r
  | some (lo, _, up, low) =>
    let delta := if lower then low else up
    if delta = upperLower then lo + ((r - lo) / 2 * 2 + if lower then 1 else 0)
    else ((r : Int) + delta).toNat

def toLower (r : Nat) : Nat :=
  if r < 0x80 then if 0x41 ≤ r ∧ r ≤ 0x5A then r + 0x20 else r else convertCase true r

def toUpper (r : Nat) : Nat :=
  if r < 0x80 then if 0x61 ≤ r ∧ r ≤ 0x7A then r - 0x20 else r else convertCase false r

/-- `unicode.caseOrbit`: the folding steps outside ASCII that are neither the
lower nor the upper case. -/
def caseOrbit : List (Nat × Nat) :=
  [(0x00B5, 0x039C), (0x00C5, 0x00E5), (0x00DF, 0x1E9E), (0x00E5, 0x212B), (0x0130, 0x0130),
   (0x0131, 0x0131), (0x017F, 0x0053), (0x01C4, 0x01C5), (0x01C5, 0x01C6), (0x01C6, 0x01C4),
   (0x01C7, 0x01C8), (0x01C8, 0x01C9), (0x01C9, 0x01C7), (0x01CA, 0x01CB), (0x01CB, 0x01CC),
   (0x01CC, 0x01CA), (0x01F1, 0x01F2), (0x01F2, 0x01F3), (0x01F3, 0x01F1), (0x0345, 0x0399),
   (0x0392, 0x03B2), (0x0395, 0x03B5), (0x0398, 0x03B8), (0x0399, 0x03B9), (0x039A, 0x03BA),
   (0x039C, 0x03BC), (0x03A0, 0x03C0), (0x03A1, 0x03C1), (0x03A3, 0x03C2), (0x03A6, 0x03C6),
   (0x03A9, 0x03C9), (0x03B2, 0x03D0), (0x03B5, 0x03F5), (0x03B8, 0x03D1), (0x03B9, 0x1FBE),
   (0x03BA, 0x03F0), (0x03BC, 0x00B5), (0x03C0, 0x03D6), (0x03C1, 0x03F1), (0x03C2, 0x03C3),
   (0x03C3, 0x03A3), (0x03C6, 0x03D5), (0x03C9, 0x2126), (0x03D0, 0x0392), (0x03D1, 0x03F4),
   (0x03D5, 0x03A6), (0x03D6, 0x03A0), (0x03F0, 0x039A), (0x03F1, 0x03A1), (0x03F4, 0x0398),
   (0x03F5, 0x0395), (0x0412, 0x0432), (0x0414, 0x0434), (0x041E, 0x043E), (0x0421, 0x0441),
   (0x0422, 0x0442), (0x042A, 0x044A), (0x0432, 0x1C80), (0x0434, 0x1C81), (0x043E, 0x1C82),
   (0x0441, 0x1C83), (0x0442, 0x1C84), (0x044A, 0x1C86), (0x0462, 0x0463), (0x0463, 0x1C87),
   (0x1C80, 0x0412), (0x1C81, 0x0414), (0x1C82, 0x041E), (0x1C83, 0x0421), (0x1C84, 0x1C85),
   (0x1C85, 0x0422), (0x1C86, 0x042A), (0x1C87, 0x0462), (0x1C88, 0xA64A), (0x1E60, 0x1E61),
   (0x1E61, 0x1E9B), (0x1E9B, 0x1E60), (0x1FBE, 0x0345), (0x2126, 0x03A9), (0x212A, 0x004B),
   (0x212B, 0x00C5), (0xA64A, 0xA64B), (0xA64B, 0x1C88)]

def asciiFold (r : Nat) : Nat :=
  if r = 0x6B then 0x212A
  else if r = 0x73 then 0x17F
  else if 0x41 ≤ r ∧ r ≤ 0x5A then r + 0x20
  else if 0x61 ≤ r ∧ r ≤ 0x7A then r - 0x20
  else r

/-- `unicode.SimpleFold`: the next rune of the folding orbit. -/
def simpleFold (r : Nat) : Nat :=
  if r < 0x80 then asciiFold r
  else match caseOrbit.find? (fun p => p.1 == r) with
    | some p => p.2
    | none => if toLower r ≠ r then toLower r else toUpper r

/-! ### The lower case and ASCII -/

def lowering : List (Nat × Nat) :=
  (caseRanges.filter (fun c => c.2.2.2 != 0)).map (fun c => (c.1, c.2.1))

def meets (a b : Nat) : List (Nat × Nat) → Bool
  | [] => false
  | p :: rest => (Nat.ble p.1 b && Nat.ble a p.2) || meets a b rest

/-- The lower cases of the runes of a range lie where the table changes nothing, or the range
alternates between the two cases. -/
def lowerStable (c : Nat × Nat × Int × Int) : Bool :=
  c.2.2.2 == 0 || if c.2.2.2 = upperLower then (c.2.1 - c.1) % 2 == 1
    else !meets (c.1 + c.2.2.2).toNat (c.2.1 + c.2.2.2).toNat lowering

theorem caseRanges_lowerStable : caseRanges.all lowerStable = true := by decide +kernel

def sortedAfter : Nat → List (Nat × Nat × Int × Int) → Bool
  | _, [] => true
  | a, c :: rest => Nat.blt a c.1 && Nat.ble c.1 c.2.1 && sortedAfter c.2.1 rest

theorem caseRanges_sorted : sortedAfter 0 caseRanges = true := by decide +kernel

theorem meets_of_mem {a b r : Nat} (ha : a ≤ r) (hb : r ≤ b) : ∀ {l : List (Nat × Nat)}
    {p : Nat × Nat}, p ∈ l → p.1 ≤ r → r ≤ p.2 → meets a b l = true := by
  intro l
  induction l with
  | nil => exact fun hp => nomatch hp
  | cons q l ih =>
    intro p hp hlo hhi
    rw [meets, Bool.or_eq_true, Bool.and_eq_true]
    rcases mem_cons.mp hp with rfl | hp
    · exact .inl ⟨Nat.ble_eq.mpr (hlo.trans hb), Nat.ble_eq.mpr (ha.trans hhi)⟩
    · exact .inr (ih hp hlo hhi)

theorem lt_of_sortedAfter : ∀ {l : List (Nat × Nat × Int × Int)} {a : Nat},
    sortedAfter a l = true → ∀ c ∈ l, a < c.1 := by
  intro l
  induction l with
  | nil => exact fun _ c hc => nomatch hc
  | cons d l ih =>
    intro a h c hc
    rw [sortedAfter, Bool.and_eq_true, Bool.and_eq_true, Nat.blt_eq, Nat.ble_eq] at h
    rcases mem_cons.mp hc with rfl | hc
    · exact h.1.1
    · have := ih h.2 c hc
      omega

theorem range_unique {r : Nat} : ∀ {l : List (Nat × Nat × Int × Int)} {a : Nat},
    sortedAfter a l = true → ∀ c ∈ l, ∀ d ∈ l, c.1 ≤ r → r ≤ c.2.1 → d.1 ≤ r → r ≤ d.2.1 →
      c = d := by
  intro l
  induction l with
  | nil => exact fun _ c hc => nomatch hc
  | cons e l ih =>
    intro a h c hc d hd hc₁ hc₂ hd₁ hd₂
    rw [sortedAfter, Bool.and_eq_true] at h
    have hafter := lt_of_sortedAfter h.2
    rcases mem_cons.mp hc with rfl | hc'
    · rcases mem_cons.mp hd with rfl | hd'
      · rfl
      · have := hafter d hd'
        omega
    · rcases mem_cons.mp hd with rfl | hd'
      · have := hafter c hc'
        omega
      · exact ih h.2 c hc' d hd' hc₁ hc₂ hd₁ hd₂

theorem toLower_eq_self {r : Nat} (h : ∀ p ∈ lowering, ¬(p.1 ≤ r ∧ r ≤ p.2)) : toLower r = r := by
  have hascii : (0x41, 0x5A) ∈ lowering := by decide
  unfold toLower
  split
  · exact if_neg (h _ hascii)
  · unfold convertCase
    split
    · rfl
    · rename_i lo hi up low hf
      have hin := find?_some hf
      simp only [Bool.and_eq_true, decide_eq_true_eq] at hin
      have hlow : low = 0 := by
        by_contra hne
        refine h (lo, hi) (mem_map.mpr ⟨(lo, hi, up, low), mem_filter.mpr
          ⟨mem_of_find?_eq_some hf, bne_iff_ne.mpr hne⟩, rfl⟩) hin
      subst hlow
      have hne : ¬(0 : Int) = upperLower := by decide
      simp only [if_true, if_neg hne]
      omega

/-- **The lower case of a lower case is that lower case.** -/
theorem toLower_toLower (r : Nat) : toLower (toLower r) = toLower r := by
  by_cases hr : r < 0x80
  · have hascii : ∀ r < 0x80, toLower (toLower r) = toLower r := by decide
    exact hascii r hr
  have hlower : toLower r = convertCase true r := by rw [toLower, if_neg hr]
  cases hf : caseRanges.find? (fun c => decide (c.1 ≤ r) && decide (r ≤ c.2.1)) with
  | none =>
    have hsame : toLower r = r := by rw [hlower, convertCase, hf]
    rw [hsame, hsame]
  | some c =>
    obtain ⟨lo, hi, up, low⟩ := c
    have hmem := mem_of_find?_eq_some hf
    have hin := find?_some hf
    have hstable := all_eq_true.mp caseRanges_lowerStable _ hmem
    simp only [Bool.and_eq_true, decide_eq_true_eq] at hin
    rw [lowerStable, Bool.or_eq_true, beq_iff_eq] at hstable
    dsimp only at hstable
    rw [convertCase, hf] at hlower
    simp only [if_true] at hlower
    rcases hstable with hlow | hstable
    · have hne : ¬low = upperLower := by rw [hlow]; decide
      rw [if_neg hne] at hlower
      have hsame : toLower r = r := by rw [hlower]; omega
      rw [hsame, hsame]
    by_cases hlow : low = upperLower
    · -- the second rune of a pair is found in the same range
      rw [if_pos hlow, beq_iff_eq] at hstable
      rw [if_pos hlow] at hlower
      have hlo : lo ≤ toLower r := by omega
      have hhi : toLower r ≤ hi := by omega
      have hnot : ¬toLower r < 0x80 := by omega
      rw [toLower, if_neg hnot, convertCase]
      split
      · rename_i hnone
        have := find?_eq_none.mp hnone _ hmem
        simp only [Bool.and_eq_true, decide_eq_true_eq, not_and] at this
        exact absurd hhi (this hlo)
      · rename_i lo' hi' up' low' hf'
        have hin' := find?_some hf'
        simp only [Bool.and_eq_true, decide_eq_true_eq] at hin'
        have heq := range_unique caseRanges_sorted _ (mem_of_find?_eq_some hf') _ hmem
          hin'.1 hin'.2 hlo hhi
        cases heq
        simp only [if_true, if_pos hlow]
        omega
    · rw [if_neg hlow] at hlower
      rw [if_neg hlow] at hstable
      refine toLower_eq_self (fun p hp hbetween => ?_)
      have hmeets := meets_of_mem (a := (lo + low).toNat) (b := (hi + low).toNat) (by omega)
        (by omega) hp hbetween.1 hbetween.2
      rw [hmeets] at hstable
      cases hstable

/-! ### The folding orbit of an ASCII rune -/

/-- `x` is one of the runes that fold with the ASCII lower-case rune `c`. -/
def AsciiClass (c x : Nat) : Prop :=
  (x < 0x80 ∧ toLower x = c) ∨ (x = 0x212A ∧ c = 0x6B) ∨ (x = 0x17F ∧ c = 0x73)

theorem asciiFold_class : ∀ x < 0x80, (asciiFold x < 0x80 ∧ toLower (asciiFold x) = toLower x) ∨
    (asciiFold x = 0x212A ∧ toLower x = 0x6B) ∨ (asciiFold x = 0x17F ∧ toLower x = 0x73) := by
  decide

theorem asciiClass_simpleFold {c x : Nat} (h : AsciiClass c x) : AsciiClass c (simpleFold x) := by
  rcases h with ⟨hx, hc⟩ | ⟨rfl, rfl⟩ | ⟨rfl, rfl⟩
  · rw [simpleFold, if_pos hx]
    subst hc
    exact asciiFold_class x hx
  · exact Or.inl (by decide)
  · exact Or.inl (by decide)

/-- **Folding does not leave the class of an ASCII rune.** -/
theorem asciiClass_iterate {c x : Nat} (h : AsciiClass c x) (n : Nat) :
    AsciiClass c (simpleFold^[n] x) := by
  induction n generalizing x with
  | zero => exact h
  | succ n ih =>
    rw [Function.iterate_succ_apply]
    exact ih (asciiClass_simpleFold h)

def isSpace (r : Nat) : Bool :=
  (0x09 ≤ r && r ≤ 0x0D) || r == 0x20 || r == 0x85 || r == 0xA0 || r == 0x1680
    || (0x2000 ≤ r && r ≤ 0x200A) || r == 0x2028 || r == 0x2029 || r == 0x202F || r == 0x205F
    || r == 0x3000

end Go
