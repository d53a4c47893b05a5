import Neug.Library.Attempt
import Neug.Storage.EdgeTableRuns

/-! # Failed changes of an edge

Deleting an edge and updating its property change the outgoing entry before the offset of the
incoming one is checked.  When that check fails, the outgoing entry stays changed.  Offsets are
32-bit integers: `delete_edge` compares them as such, and a negative one is before the array,
while the iterator of an update converts them to 64 bits without a sign.
-/

namespace Neug.Storage

open Library

namespace Csr

end Csr

namespace EdgeChange

open EdgeTable

/-- `static_cast<size_t>` of an offset. -/
def slot (offset : Int) : Nat := (offset % 2 ^ 64).toNat

variable {et : EdgeTable}

/-- A table with one edge. -/
def oneEdge : EdgeTable :=
  ⟨[.fixed .int64], ⟨.mutable, 2, fun v => if v = 0 then [⟨1, 3, .fixed .int64 7⟩] else []⟩,
    ⟨.mutable, 2, fun v => if v = 1 then [⟨0, 3, .fixed .int64 7⟩] else []⟩, [], 0, 0⟩

end EdgeChange

end Neug.Storage
