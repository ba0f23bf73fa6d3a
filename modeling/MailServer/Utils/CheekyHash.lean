import Mathlib.Data.List.Basic

/-!
# Cheeky hashes (`utils/src/cheeky_hash.rs`)

Sixteen bytes: the length of the input in the first, then the input itself when it is short, else
fifteen bytes of its hashes.  Only the bytes up to the length are ever used, so a value here is the
length byte and the payload it announces.
-/

namespace MailServer.Utils

def HASH_PAYLOAD : ℕ := 15

/-- A `CheekyHash`: `payload_len` and `payload`. -/
structure CheekyHash where
  payloadLen : UInt8
  payload : List UInt8
  length_payload : payload.length = min payloadLen.toNat HASH_PAYLOAD
  deriving DecidableEq

namespace CheekyHash

/-- `CheekyHash::len`. -/
def len (h : CheekyHash) : ℕ := min h.payloadLen.toNat HASH_PAYLOAD + 1

/-- `CheekyHash::as_bytes`. -/
def asBytes (h : CheekyHash) : List UInt8 := h.payloadLen :: h.payload

theorem length_asBytes (h : CheekyHash) : h.asBytes.length = h.len := by
  rw [asBytes, List.length_cons, h.length_payload, len]

theorem ext_iff {g h : CheekyHash} :
    g = h ↔ g.payloadLen = h.payloadLen ∧ g.payload = h.payload := by
  cases g
  cases h
  simp

theorem asBytes_append_inj {g h : CheekyHash} {l m : List UInt8}
    (e : g.asBytes ++ l = h.asBytes ++ m) : g = h ∧ l = m := by
  rw [asBytes, asBytes, List.cons_append, List.cons_append, List.cons.injEq] at e
  obtain ⟨hlen, e⟩ := e
  have hpay : g.payload.length = h.payload.length := by
    rw [g.length_payload, h.length_payload, hlen]
  obtain ⟨hp, hl⟩ := List.append_inj e hpay
  exact ⟨ext_iff.2 ⟨hlen, hp⟩, hl⟩

end CheekyHash

end MailServer.Utils
