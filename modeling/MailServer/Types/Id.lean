import Mathlib.Algebra.Order.Ring.Nat

/-!
# Ids (`types/src/id.rs`)

A JMAP id is a number of 64 bits: the number of the document, below a prefix such as its thread.
-/

namespace MailServer.Types

structure Id where
  id : UInt64
  deriving DecidableEq, Repr

def base32Alphabet : List Char := "abcdefghijklmnopqrstuvwxyz792013".toList

namespace Id

instance : LinearOrder Id :=
  LinearOrder.lift' (fun i => i.id.toNat) fun i j h => by
    cases i
    cases j
    exact congrArg Id.mk (UInt64.toNat_inj.mp h)

theorem lt_iff {i j : Id} : i < j ↔ i.id.toNat < j.id.toNat := Iff.rfl

def fromParts (prefixId docId : UInt32) : Id := ⟨prefixId.toUInt64 <<< 32 ||| docId.toUInt64⟩

def ofDocumentId (docId : UInt32) : Id := ⟨docId.toUInt64⟩

def documentId (i : Id) : UInt32 := i.id.toUInt32

def prefixId (i : Id) : UInt32 := (i.id >>> 32).toUInt32

/-- Groups of five bits from the highest that is not zero. -/
def asString (i : Id) : String :=
  if i.id = 0 then "a"
  else
    let groups := (List.range 13).reverse.map fun k => i.id.toNat / 32 ^ k % 32
    String.ofList ((groups.dropWhile (· = 0)).map fun g => base32Alphabet.getD g 'a')

end Id

end MailServer.Types
