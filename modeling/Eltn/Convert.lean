import Eltn.CLib

/-!
# UTF-8 output

The encoder of `convert.c`, which the unescaping of quoted strings calls for `\u` escapes.
-/

namespace Eltn

/-- The bytes `write_utf8` stores from `outbuf[j]` on; their number is its result, so that no byte
means that it refuses the code point. One byte is stored without a look at `outsz`, and the longer
forms ask for one byte of room more than they store. -/
def writeUtf8 (cp outsz j : Nat) : Bytes :=
  if cp ≤ 0x7F then [cp.toUInt8]
  else if cp ≤ 0x7FF ∧ j + 2 < outsz then
    [(0xC0 ||| (0x1F &&& (cp >>> 6))).toUInt8, (0x80 ||| (0x3F &&& cp)).toUInt8]
  else if cp ≤ 0xFFFF ∧ j + 3 < outsz then
    [(0xE0 ||| (0x0F &&& (cp >>> 12))).toUInt8, (0x80 ||| (0x3F &&& (cp >>> 6))).toUInt8,
      (0x80 ||| (0x3F &&& cp)).toUInt8]
  else if cp ≤ 0x1FFFFF ∧ j + 4 < outsz then
    [(0xF0 ||| (0x07 &&& (cp >>> 18))).toUInt8, (0x80 ||| (0x3F &&& (cp >>> 12))).toUInt8,
      (0x80 ||| (0x3F &&& (cp >>> 6))).toUInt8, (0x80 ||| (0x3F &&& cp)).toUInt8]
  else if cp ≤ 0x3FFFFF ∧ j + 5 < outsz then
    [(0xF8 ||| (0x03 &&& (cp >>> 24))).toUInt8, (0x80 ||| (0x3F &&& (cp >>> 18))).toUInt8,
      (0x80 ||| (0x3F &&& (cp >>> 12))).toUInt8, (0x80 ||| (0x3F &&& (cp >>> 6))).toUInt8,
      (0x80 ||| (0x3F &&& cp)).toUInt8]
  else if cp ≤ 0x7FFFFF ∧ j + 6 < outsz then
    -- the source shifts by 6 twice
    [(0xFC ||| (0x01 &&& (cp >>> 24))).toUInt8, (0x80 ||| (0x3F &&& (cp >>> 18))).toUInt8,
      (0x80 ||| (0x3F &&& (cp >>> 12))).toUInt8, (0x80 ||| (0x3F &&& (cp >>> 6))).toUInt8,
      (0x80 ||| (0x3F &&& (cp >>> 6))).toUInt8, (0x80 ||| (0x3F &&& cp)).toUInt8]
  else []

/-- `C_Conv_codepoint_to_char8` (`convert.c:311`). -/
def codepointToChar8 (cp outsz : Nat) : Bytes := writeUtf8 cp outsz 0

end Eltn
