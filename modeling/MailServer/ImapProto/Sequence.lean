import Mathlib.Data.Nat.Notation

/-!
# Sequence sets (`imap-proto/src/protocol/mod.rs`)

* `Sequence.contains`: whether a set has a number, where `*` stands for the greatest one in use.
* `Sequence.isSavedSearch`: whether it refers to `$`, the result of an earlier SEARCH.
-/

namespace MailServer.ImapProto

inductive Sequence where
  | number (value : ℕ)
  | range (start stop : Option ℕ)
  | savedSearch
  | list (items : List Sequence)

namespace Sequence

mutual

def contains (value maxValue : ℕ) : Sequence → Bool
  | .number n => n == value
  | .range (some start) (some stop) => start ≤ value && value ≤ stop || stop ≤ value && value ≤ start
  | .range (some bound) none | .range none (some bound) =>
    bound ≤ value && value ≤ maxValue || maxValue ≤ value && value ≤ bound
  | .range none none => value == maxValue
  | .list items => containsAny value maxValue items
  | .savedSearch => false

def containsAny (value maxValue : ℕ) : List Sequence → Bool
  | [] => false
  | item :: items => item.contains value maxValue || containsAny value maxValue items

end

mutual

def isSavedSearch : Sequence → Bool
  | .savedSearch => true
  | .list items => anySavedSearch items
  | _ => false

def anySavedSearch : List Sequence → Bool
  | [] => false
  | item :: items => item.isSavedSearch || anySavedSearch items

end

end Sequence

end MailServer.ImapProto
