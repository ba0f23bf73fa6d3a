import Mathlib.Tactic.IntervalCases

/-!
# Keywords (`types/src/keyword.rs`)

A keyword is one of those with a number, or any other text.
-/

namespace MailServer.Types

inductive Keyword where
  | other (name : String)
  | seen | draft | flagged | answered | recent | important | phishing | junk | notJunk | deleted | forwarded
  | mdnSent | autosent | canUnsubscribe | followed | hasAttachment | hasMemo | hasNoAttachment | imported | isTrusted
  | mailFlagBit0 | mailFlagBit1 | mailFlagBit2 | maskedEmail | memo | muted | new | notify | unsubscribed
  deriving DecidableEq

namespace Keyword

/-- `OTHER` -/
def firstOther : ℕ := 29

def id : Keyword → Except String ℕ
  | seen => .ok 0
  | draft => .ok 1
  | flagged => .ok 2
  | answered => .ok 3
  | recent => .ok 4
  | important => .ok 5
  | phishing => .ok 6
  | junk => .ok 7
  | notJunk => .ok 8
  | deleted => .ok 9
  | forwarded => .ok 10
  | mdnSent => .ok 11
  | autosent => .ok 12
  | canUnsubscribe => .ok 13
  | followed => .ok 14
  | hasAttachment => .ok 15
  | hasMemo => .ok 16
  | hasNoAttachment => .ok 17
  | imported => .ok 18
  | isTrusted => .ok 19
  | mailFlagBit0 => .ok 20
  | mailFlagBit1 => .ok 21
  | mailFlagBit2 => .ok 22
  | maskedEmail => .ok 23
  | memo => .ok 24
  | muted => .ok 25
  | new => .ok 26
  | notify => .ok 27
  | unsubscribed => .ok 28
  | other name => .error name

def tryFromId : ℕ → Except ℕ Keyword
  | 0 => .ok seen
  | 1 => .ok draft
  | 2 => .ok flagged
  | 3 => .ok answered
  | 4 => .ok recent
  | 5 => .ok important
  | 6 => .ok phishing
  | 7 => .ok junk
  | 8 => .ok notJunk
  | 9 => .ok deleted
  | 10 => .ok forwarded
  | 11 => .ok mdnSent
  | 12 => .ok autosent
  | 13 => .ok canUnsubscribe
  | 14 => .ok followed
  | 15 => .ok hasAttachment
  | 16 => .ok hasMemo
  | 17 => .ok hasNoAttachment
  | 18 => .ok imported
  | 19 => .ok isTrusted
  | 20 => .ok mailFlagBit0
  | 21 => .ok mailFlagBit1
  | 22 => .ok mailFlagBit2
  | 23 => .ok maskedEmail
  | 24 => .ok memo
  | 25 => .ok muted
  | 26 => .ok new
  | 27 => .ok notify
  | 28 => .ok unsubscribed
  | id => .error id

/-- `Display` -/
def display : Keyword → String
  | seen => "$seen"
  | draft => "$draft"
  | flagged => "$flagged"
  | answered => "$answered"
  | recent => "$recent"
  | important => "$important"
  | phishing => "$phishing"
  | junk => "$junk"
  | notJunk => "$notjunk"
  | deleted => "$deleted"
  | forwarded => "$forwarded"
  | mdnSent => "$mdnsent"
  | autosent => "$autosent"
  | canUnsubscribe => "$canunsubscribe"
  | followed => "$followed"
  | hasAttachment => "$hasattachment"
  | hasMemo => "$hasmemo"
  | hasNoAttachment => "$hasnoattachment"
  | imported => "$imported"
  | isTrusted => "$istrusted"
  | mailFlagBit0 => "$MailFlagBit0"
  | mailFlagBit1 => "$MailFlagBit1"
  | mailFlagBit2 => "$MailFlagBit2"
  | maskedEmail => "$maskedemail"
  | memo => "$memo"
  | muted => "$muted"
  | new => "$new"
  | notify => "$notify"
  | unsubscribed => "$unsubscribed"
  | other name => name

theorem id_eq_error {k : Keyword} {name : String} : k.id = .error name ↔ k = other name := by
  cases k <;> simp [id]

theorem tryFromId_eq_ok {i : ℕ} {k : Keyword} : tryFromId i = .ok k ↔ k.id = .ok i := by
  constructor
  · intro h
    unfold tryFromId at h
    split at h <;> cases h <;> rfl
  · intro h
    cases k <;> cases h <;> rfl

theorem tryFromId_of_le {i : ℕ} (h : firstOther ≤ i) : tryFromId i = .error i := by
  obtain ⟨j, rfl⟩ := Nat.exists_eq_add_of_le' h
  rfl

theorem lt_of_id {k : Keyword} {i : ℕ} (h : k.id = .ok i) : i < firstOther := by
  by_contra hge
  have hok := tryFromId_eq_ok.2 h
  rw [tryFromId_of_le (Nat.not_lt.mp hge)] at hok
  cases hok

theorem exists_id {i : ℕ} (h : i < firstOther) : ∃ k : Keyword, k.id = .ok i := by
  unfold firstOther at h
  interval_cases i <;> exact ⟨_, tryFromId_eq_ok.1 rfl⟩

end Keyword

end MailServer.Types
