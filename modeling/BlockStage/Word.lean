/-! # Machine words

The bounds of whole numbers that are kept in 32 or 64 bits.
-/
namespace BlockStage.Word

def limit32 : Nat := 4294967296

def limit64 : Nat := 18446744073709551616

/-- One more than the largest number of 64 bits with a sign. -/
def signedLimit64 : Nat := 9223372036854775808

def fitsSigned64 (n : Int) : Bool := -(signedLimit64 : Int) ≤ n && n < (signedLimit64 : Int)

end BlockStage.Word
