import Eltn.Convert

/-!
# Character classes and unescaping

The functions of `estring.c`. The unescaper walks a pointer over the literal and appends to its
output block; the pointer is the list of the bytes from it on, the terminator included, and the
output block is the list of the bytes stored so far.
-/

namespace Eltn

/-! ## Character classes -/

/-- `ELTN_is_space` (`estring.c:229`): form feed, line feed, carriage return, both tabs and the
blank. -/
def isSpace (c : UInt8) : Bool :=
  c = 0x0C || c = 0x0A || c = 0x0D || c = 0x09 || c = 0x0B || c = 0x20

/-- `ELTN_is_letter` (`estring.c:243`). -/
def isLetter (c : UInt8) : Bool := (0x41 ≤ c && c ≤ 0x5A) || (0x61 ≤ c && c ≤ 0x7A)

/-- `ELTN_is_digit` (`estring.c:307`). -/
def isDigit (c : UInt8) : Bool := 0x30 ≤ c && c ≤ 0x39

/-- `ELTN_is_hexdigit` (`estring.c:325`). -/
def isHexdigit (c : UInt8) : Bool :=
  (0x30 ≤ c && c ≤ 0x39) || (0x41 ≤ c && c ≤ 0x46) || (0x61 ≤ c && c ≤ 0x66)

/-- `ELTN_is_octdigit` (`estring.c:355`). -/
def isOctdigit (c : UInt8) : Bool := 0x30 ≤ c && c ≤ 0x37

/-- `ELTN_is_name_start` (`estring.c:371`): an underscore or a letter. -/
def isNameStart (c : UInt8) : Bool := c = 0x5F || isLetter c

/-- `ELTN_is_name_part` (`estring.c:375`): an underscore, a letter or a digit. -/
def isNamePart (c : UInt8) : Bool := isNameStart c || isDigit c

/-- `ELTN_is_number_part` (`estring.c:379`): one of `.+-eEpPxX` or a hexadecimal digit. -/
def isNumberPart (c : UInt8) : Bool :=
  c = 0x2E || c = 0x2B || c = 0x2D || c = 0x65 || c = 0x45 || c = 0x70 || c = 0x50 || c = 0x78 ||
    c = 0x58 || isHexdigit c

/-! ## Unescaping -/

/-- `append_octal` (`estring.c:32`): up to three octal digits are read, and the byte stored for them
is their value modulo 256. -/
def appendOctal (index out : Bytes) : Bytes × Bytes :=
  let ds := (index.take 3).takeWhile isOctdigit
  (index.drop ds.length, out ++ [(strtol 8 ds % 256).toNat.toUInt8])

/-- `append_hex` (`estring.c:49`): two hexadecimal digits stand for one byte. Nothing is read or
stored unless two of them follow, so that the bytes behind the escape are taken as they are. -/
def appendHex (index out : Bytes) : Bytes × Bytes :=
  if !isHexdigit (index.headD 0) || !isHexdigit (index.tail.headD 0) then (index, out)
  else (index.drop 2, out ++ [(strtol 16 (index.take 2) % 256).toNat.toUInt8])

/-- `append_unicode` (`estring.c:66`): the closing brace is looked for in the whole rest of the
string, and the room passed to the encoder is the number of bytes stored so far. -/
def appendUnicode (index out : Bytes) : Bytes × Bytes :=
  match strchr index 0x7D with
  | none => (index, out)
  | some closebracket =>
    if index.headD 0 ≠ 0x7B then (index, out)
    else
      let cp := (strtol 16 index.tail % 2 ^ 32).toNat
      (closebracket.tail, out ++ codepointToChar8 cp out.length)

/-- The escapes of one letter that stand for one byte: the control characters of C that have a
letter of their own. -/
def letterEscape (c : UInt8) : Option UInt8 :=
  if c = 0x61 then some 0x07        -- \a
  else if c = 0x62 then some 0x08   -- \b
  else if c = 0x66 then some 0x0C   -- \f
  else if c = 0x6E then some 0x0A   -- \n
  else if c = 0x72 then some 0x0D   -- \r
  else if c = 0x74 then some 0x09   -- \t
  else if c = 0x76 then some 0x0B   -- \v
  else none

/-- The `switch` of `ELTN_unescape_quoted_string` (`estring.c:86`), the pointer standing after the
backslash. A newline in any of its three forms is stored as a line feed, `z` skips blanks and
newlines, and a byte that starts no escape stands for itself. -/
def unescapeSwitch (index out : Bytes) : Bytes × Bytes :=
  let c := index.headD 0
  if c = 0x0A then (index.tail, out ++ [0x0A])
  else if c = 0x0D then
    (if index.tail.headD 0 = 0x0A then index.tail.tail else index.tail, out ++ [0x0A])
  else match letterEscape c with
    | some b => (index.tail, out ++ [b])
    | none =>
      if c = 0x78 then appendHex index.tail out
      else if c = 0x75 then appendUnicode index.tail out
      else if c = 0x7A then (index.tail.dropWhile isSpace, out)
      else if isOctdigit c then appendOctal index out
      else (index.tail, out ++ [c])

/-- One turn of the loop of `ELTN_unescape_quoted_string`: a byte other than the backslash is
copied, and a backslash goes on with its escape. -/
def unescapeStep (index out : Bytes) : Bytes × Bytes :=
  if index.headD 0 ≠ 0x5C then (index.tail, out ++ [index.headD 0])
  else unescapeSwitch index.tail out

/-- The loop of `ELTN_unescape_quoted_string` (`estring.c:86`); `1 < index.length` says that the
pointer stands before the terminator. -/
def unescapeLoop (quotechar : UInt8) : Nat → Bytes → Bytes → Bytes × Bytes
  | 0, index, out => (index, out)
  | fuel + 1, index, out =>
    if 1 < index.length ∧ index.headD 0 ≠ quotechar then
      unescapeLoop quotechar fuel (unescapeStep index out).1 (unescapeStep index out).2
    else (index, out)

/-- `ELTN_unescape_quoted_string` (`estring.c:86`): the pointer where the scan stops, and the bytes
stored. Every turn of the loop moves the pointer, so `instr.length` turns are enough. -/
def unescapeQuotedString (instr : Bytes) : Bytes × Bytes :=
  let c := instr.headD 0
  if c = 0x27 ∨ c = 0x22 then unescapeLoop c instr.length (instr ++ [0]).tail []
  else unescapeLoop 0 instr.length (instr ++ [0]) []

/-- The offset at which the scan of `ELTN_unescape_quoted_string` stops. -/
def unescapeStop (instr : Bytes) : Nat := instr.length + 1 - (unescapeQuotedString instr).1.length

/-- `ELTN_unquote_long_string` (`estring.c:196`), which copies. -/
def unquoteLongString (instr : Bytes) : Bytes := instr

/-- `ELTN_trim_comment` (`estring.c:205`), which copies. -/
def trimComment (instr : Bytes) : Bytes := instr

end Eltn
