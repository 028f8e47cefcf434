/-!
Which integers fit 64 bits.
-/

namespace Meristem

def fitsSigned (n : Int) : Bool := -Int.pow 2 63 ≤ n && n < Int.pow 2 63

def fitsUnsigned (n : Int) : Bool := 0 ≤ n && n < Int.pow 2 64

end Meristem
