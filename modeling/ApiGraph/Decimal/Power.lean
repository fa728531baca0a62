/-!
Powers of two and of ten, which bound the numbers of documents and scale them.
-/

namespace ApiGraph.Decimal

def twoTo (n : Nat) : Nat := Nat.pow 2 n

def tenTo (n : Nat) : Nat := Nat.pow 10 n

end ApiGraph.Decimal
