import WeightedGraph.Error

/-!
# Requests for memory

A request names a number of bytes.  Above `maxRequest` it cannot be made at all; from the limit of the allocator on
it is turned down; below, memory is taken to be enough.  The limit is an argument of whatever asks for the memory of a
graph (`reserveWithin`), and `addressSpace` where nothing else is said (`reserve`).
-/

namespace WeightedGraph

namespace Allocation

/-- The largest number of bytes that one request can name. -/
def maxRequest : Nat := Nat.pow 2 63 - 1

/-- The number of bytes from which on every request is turned down. -/
def addressSpace : Nat := Nat.pow 2 47

/-- The largest number of things that can be counted. -/
def maxCount : Nat := Nat.pow 2 64 - 1

/-- The answer of an allocator that turns down requests for `limit` bytes or more. -/
def requestWithin (limit bytes : Nat) : Except AllocationError Unit :=
  if maxRequest < bytes then .error .capacityExceeded
  else if limit ≤ bytes then .error .refused
  else .ok ()

/-- Asks for room for `count` items of `itemBytes` bytes each. -/
def reserveWithin (limit count itemBytes : Nat) : Except GraphError Unit :=
  (requestWithin limit (itemBytes * count)).mapError .allocation

def reserve (count itemBytes : Nat) : Except GraphError Unit := reserveWithin addressSpace count itemBytes

end Allocation

end WeightedGraph
