/-!
The Windows-1252 code page. Every byte has a character: the five unassigned codes keep their own
number, as the control characters do.
-/

namespace Ese.Text.Windows1252

def high : List Char :=
  ['\u20AC', '\u0081', '\u201A', '\u0192', '\u201E', '\u2026', '\u2020', '\u2021',
   '\u02C6', '\u2030', '\u0160', '\u2039', '\u0152', '\u008D', '\u017D', '\u008F',
   '\u0090', '\u2018', '\u2019', '\u201C', '\u201D', '\u2022', '\u2013', '\u2014',
   '\u02DC', '\u2122', '\u0161', '\u203A', '\u0153', '\u009D', '\u017E', '\u0178']

/-- Codes outside the table are the character of the same number. -/
def decodeByte (b : UInt8) : Char :=
  if 0x80 ≤ b ∧ b < 0xA0 then high.getD (b.toNat - 0x80) '\x00' else Char.ofNat b.toNat

def decode (bytes : List UInt8) : List Char := bytes.map decodeByte

/-- Below 0x80 the code page is ASCII. -/
theorem decodeByte_of_lt {b : UInt8} (h : b < 0x80) : decodeByte b = Char.ofNat b.toNat := by
  unfold decodeByte
  rw [if_neg]
  rintro ⟨h1, -⟩
  exact absurd (UInt8.lt_of_lt_of_le h h1) (UInt8.lt_irrefl b)

end Ese.Text.Windows1252
