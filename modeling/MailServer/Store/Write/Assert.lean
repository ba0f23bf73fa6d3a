import MailServer.Store.Write.Batch
import MailServer.Store.Write.Key

/-!
# Assertions on values (`store/src/write/assert.rs`)

An assertion compares the end of the stored bytes.
-/

namespace MailServer.Store.Write

/-- `bytes.get(bytes.len() - n..)`: the last `n` bytes, when there are as many. -/
def lastBytes (n : ℕ) (bytes : List UInt8) : Option (List UInt8) :=
  if n ≤ bytes.length then some (bytes.drop (bytes.length - n)) else none

namespace AssertValue

/-- `AssertValue::matches`.  `xxh3` is the hash of the stored bytes. -/
def matchesBytes (xxh3 : List UInt8 → UInt64) (v : AssertValue) (bytes : List UInt8) : Bool :=
  match v with
  | .u32 v => lastBytes U32_LEN bytes = Option.some (be32 v)
  | .u64 v => lastBytes U64_LEN bytes = Option.some (be64 v)
  | .hash v => xxh3 bytes = v
  | .archive (.versioned _ h) =>
    (lastBytes (U32_LEN + U64_LEN + 1) bytes).map (List.take U32_LEN) = Option.some (be32 h)
  | .archive (.hashed h) =>
    (lastBytes (U32_LEN + 1) bytes).map (List.take U32_LEN) = Option.some (be32 h)
  | .archive .unversioned => false
  | .none => false
  | .some => true

def isNone : AssertValue → Bool
  | .none => true
  | _ => false

/-- An assertion of the write loop: without a value, only `None` holds. -/
def holds (xxh3 : List UInt8 → UInt64) (v : AssertValue) (value : Option (List UInt8)) : Bool :=
  (value.map (v.matchesBytes xxh3)).getD v.isNone

variable {xxh3 : List UInt8 → UInt64}

@[simp] theorem holds_none {value : Option (List UInt8)} :
    (AssertValue.none).holds xxh3 value = true ↔ value = Option.none := by
  cases value <;> simp [holds, matchesBytes, isNone]

theorem holds_u64_be64 {v w : UInt64} :
    (AssertValue.u64 v).holds xxh3 (Option.some (be64 w)) = true ↔ v = w := by
  have hlast : lastBytes U64_LEN (be64 w) = Option.some (be64 w) := by
    simp [lastBytes, U64_LEN]
  simp [holds, matchesBytes, hlast, eq_comm]

end AssertValue

end MailServer.Store.Write
