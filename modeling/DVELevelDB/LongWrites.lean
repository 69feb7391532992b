import DVELevelDB.DVECLevelDB

/-! # Writes of any length

Lengths are stored in 32 bits. A longer key or value is read back as a different record and
further records after it, which the memtable takes before the pass over the batch fails.
-/

namespace DVELevelDB

open VersionStore DB

section Harmless

variable {κ : Type*} [LinearOrder κ]

variable {rank : Bytes → κ} {o : Options} {io : WriteEvents} {sync : Bool} {value key : Bytes}
  {db : DB}

end Harmless

end DVELevelDB
