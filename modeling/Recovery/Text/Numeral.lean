/-
  Numerals as they appear in recovered code.

  Offsets, masks and constants are written in base sixteen. Three questions
  decide a numeral: the case of its letters, its least width, and what happens
  below zero. A constant shows its sign (`signedHex`); a negative offset is shown
  as the word that holds it, so it comes here as a natural number.
-/

namespace Recovery.Numeral

def lowerHex (n : Nat) : String := String.ofList (Nat.toDigits 16 n)

def upperHex (n : Nat) : String := String.ofList ((Nat.toDigits 16 n).map Char.toUpper)

def upperHexPair (n : Nat) : String :=
  let digits := (Nat.toDigits 16 n).map Char.toUpper
  String.ofList (List.replicate (2 - digits.length) '0' ++ digits)

/-- A number in base sixteen after the mark `0x`. -/
def markedHex (n : Nat) : String := "0x" ++ lowerHex n

/-- An integer as a sign, the mark `0x` and its magnitude. -/
def signedHex (i : Int) : String :=
  if i < 0 then "-" ++ markedHex i.natAbs else markedHex i.natAbs

end Recovery.Numeral
