/-!
# Letter case

Lower case and comparison without regard to case for the texts that name commands, keys and levels.
They consist of ASCII letters, so only the characters that fold to an ASCII letter matter.
-/

namespace Fluxion.Text

/-- The lower case form. Besides the ASCII capitals, the Kelvin sign and the dotted capital I have an
ASCII letter as theirs. -/
def lowerChar (c : Char) : Char :=
  if c.toNat == 0x212A then 'k' else if c.toNat == 0x130 then 'i' else c.toLower

/-- A text in lower case. -/
def lower (s : String) : String := s.map lowerChar

/-- A character without regard to case. The long s and the Kelvin sign are the only characters beyond
ASCII that count as variants of an ASCII letter. -/
def foldChar (c : Char) : Char :=
  if c.toNat == 0x17F then 's' else if c.toNat == 0x212A then 'k' else c.toLower

/-- A text without regard to case. -/
def foldCase (s : String) : String := s.map foldChar

end Fluxion.Text
