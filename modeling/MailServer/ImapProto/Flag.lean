import MailServer.Lib.Utf8
import MailServer.Types.Keyword

/-!
# Flags (`imap-proto/src/parser/mod.rs`, `types/src/keyword.rs`)

* `Flag.parseImap` and `Flag.toKeyword`: the keyword of a flag that an IMAP client names.
* `Keyword.parse`: the keyword that a JMAP client names.
* `dialects_agree_iff`: the names that are one keyword for both.
-/

namespace MailServer

open List Lib

/-- `hashify::tiny_map_ignore_case!` -/
def tinyMapIgnoreCase {α : Type} (table : List (String × α)) (key : List UInt8) : Option α :=
  (table.find? fun e => (utf8Bytes e.1.toList).map toAsciiLowercase == key.map toAsciiLowercase).map Prod.snd
where
  toAsciiLowercase (b : UInt8) : UInt8 := if 65 ≤ b ∧ b ≤ 90 then b + 32 else b

namespace Types.Keyword

def maxLength : ℕ := 128

def fromBoxedOther (value : String) : Keyword :=
  if (utf8Bytes value.toList).length ≤ maxLength then other value
  else other (String.ofList (value.toList.take maxLength))

def names : List (String × Keyword) :=
  [("seen", seen), ("draft", draft), ("flagged", flagged), ("answered", answered), ("recent", recent),
    ("important", important), ("phishing", phishing), ("junk", junk), ("notjunk", notJunk), ("deleted", deleted),
    ("forwarded", forwarded), ("mdnsent", mdnSent), ("autosent", autosent), ("canunsubscribe", canUnsubscribe),
    ("followed", followed), ("hasattachment", hasAttachment), ("hasmemo", hasMemo),
    ("hasnoattachment", hasNoAttachment), ("imported", imported), ("istrusted", isTrusted),
    ("mailflagbit0", mailFlagBit0), ("mailflagbit1", mailFlagBit1), ("mailflagbit2", mailFlagBit2),
    ("maskedemail", maskedEmail), ("memo", memo), ("muted", muted), ("new", new), ("notify", notify),
    ("unsubscribed", unsubscribed)]

/-- `try_parse`, of the bytes of a text: one byte is split off if a character ends there. -/
def tryParse : List UInt8 → Option Keyword
  | [] => none
  | b :: rest => if b = 36 ∨ b = 92 then tinyMapIgnoreCase names rest else none

def parse (value : String) : Keyword :=
  (tryParse (utf8Bytes value.toList)).getD (other (String.ofList (value.toList.take maxLength)))

end Types.Keyword

namespace ImapProto

open Types

inductive Flag where
  | seen | draft | flagged | answered | recent | important | phishing | junk | notJunk | deleted | forwarded
  | mdnSent | autosent | canUnsubscribe | followed | hasAttachment | hasMemo | hasNoAttachment | imported | isTrusted
  | mailFlagBit0 | mailFlagBit1 | mailFlagBit2 | maskedEmail | memo | muted | new | notify | unsubscribed
  | keyword (name : String)

namespace Flag

def names : List (String × Flag) :=
  [("\\Seen", seen), ("\\Answered", answered), ("\\Flagged", flagged), ("\\Deleted", deleted), ("\\Draft", draft),
    ("\\Recent", recent), ("\\Important", important), ("$Forwarded", forwarded), ("$MDNSent", mdnSent),
    ("$Junk", junk), ("$NotJunk", notJunk), ("$Phishing", phishing), ("$Important", important),
    ("$autosent", autosent), ("$canunsubscribe", canUnsubscribe), ("$followed", followed),
    ("$hasattachment", hasAttachment), ("$hasmemo", hasMemo), ("$hasnoattachment", hasNoAttachment),
    ("$imported", imported), ("$istrusted", isTrusted), ("$MailFlagBit0", mailFlagBit0),
    ("$MailFlagBit1", mailFlagBit1), ("$MailFlagBit2", mailFlagBit2), ("$maskedemail", maskedEmail), ("$memo", memo),
    ("$muted", muted), ("$new", new), ("$notify", notify), ("$unsubscribed", unsubscribed)]

def parseImap (value : List UInt8) : Except String Flag :=
  if value.isEmpty then .error "Null flags are not allowed."
  else
    match tinyMapIgnoreCase names value with
    | some flag => .ok flag
    | none =>
      match String.fromUTF8? value.toByteArray with
      | some v => .ok (keyword v)
      | none => .error "Invalid UTF-8."

/-- `From<Flag> for Keyword` -/
def toKeyword : Flag → Keyword
  | seen => .seen
  | draft => .draft
  | flagged => .flagged
  | answered => .answered
  | recent => .recent
  | important => .important
  | phishing => .phishing
  | junk => .junk
  | notJunk => .notJunk
  | deleted => .deleted
  | forwarded => .forwarded
  | mdnSent => .mdnSent
  | autosent => .autosent
  | canUnsubscribe => .canUnsubscribe
  | followed => .followed
  | hasAttachment => .hasAttachment
  | hasMemo => .hasMemo
  | hasNoAttachment => .hasNoAttachment
  | imported => .imported
  | isTrusted => .isTrusted
  | mailFlagBit0 => .mailFlagBit0
  | mailFlagBit1 => .mailFlagBit1
  | mailFlagBit2 => .mailFlagBit2
  | maskedEmail => .maskedEmail
  | memo => .memo
  | muted => .muted
  | new => .new
  | notify => .notify
  | unsubscribed => .unsubscribed
  | keyword value => .fromBoxedOther value

end Flag

/-- The names that a JMAP client can give to a numbered keyword and an IMAP client cannot. -/
def jmapOnly : List String :=
  ["$seen", "$answered", "$flagged", "$deleted", "$draft", "$recent", "\\phishing", "\\junk", "\\notjunk",
    "\\forwarded", "\\mdnsent", "\\autosent", "\\canunsubscribe", "\\followed", "\\hasattachment", "\\hasmemo",
    "\\hasnoattachment", "\\imported", "\\istrusted", "\\mailflagbit0", "\\mailflagbit1", "\\mailflagbit2",
    "\\maskedemail", "\\memo", "\\muted", "\\new", "\\notify", "\\unsubscribed"]

open tinyMapIgnoreCase

/-- The bytes of a name without its case. -/
def folded (name : String) : List UInt8 := (utf8Bytes name.toList).map toAsciiLowercase

section

variable {α : Type} {table : List (String × α)} {key : List UInt8} {v : α}

theorem mem_of_tinyMapIgnoreCase (h : tinyMapIgnoreCase table key = some v) :
    ∃ name, (name, v) ∈ table ∧ folded name = key.map toAsciiLowercase := by
  simp only [tinyMapIgnoreCase, Option.map_eq_some_iff, Prod.exists] at h
  obtain ⟨name, _, hfind, rfl⟩ := h
  exact ⟨name, mem_of_find?_eq_some hfind, by simpa [folded] using find?_some hfind⟩

theorem tinyMapIgnoreCase_eq_none_iff :
    tinyMapIgnoreCase table key = none ↔ ∀ e ∈ table, folded e.1 ≠ key.map toAsciiLowercase := by
  simp [tinyMapIgnoreCase, folded]

end

theorem toAsciiLowercase_eq_iff {b c : UInt8} (hc : c = 36 ∨ c = 92) : toAsciiLowercase b = c ↔ b = c := by
  have hall : ∀ b : Fin 256, (toAsciiLowercase (.ofFin b) = 36 ↔ UInt8.ofFin b = 36) ∧
      (toAsciiLowercase (.ofFin b) = 92 ↔ UInt8.ofFin b = 92) := by
    decide +kernel
  rcases hc with rfl | rfl
  · exact (hall b.toFin).1
  · exact (hall b.toFin).2

/-- A name is read without its case. -/
theorem tryParse_congr {key key' : List UInt8} (h : key.map toAsciiLowercase = key'.map toAsciiLowercase) :
    Keyword.tryParse key = Keyword.tryParse key' := by
  cases key with
  | nil => rw [map_eq_nil_iff.mp h.symm]
  | cons b rest =>
    obtain ⟨b', rest', rfl, hb, hrest⟩ := map_eq_cons_iff.mp h.symm
    have hbyte (c : UInt8) (hc : c = 36 ∨ c = 92) : b' = c ↔ b = c := by
      rw [← toAsciiLowercase_eq_iff hc, hb, toAsciiLowercase_eq_iff hc]
    simp [Keyword.tryParse, tinyMapIgnoreCase, hbyte 36 (Or.inl rfl), hbyte 92 (Or.inr rfl), hrest]

/-- A short name is whole. -/
theorem fromBoxedOther_eq (value : String) :
    Keyword.fromBoxedOther value = .other (String.ofList (value.toList.take Keyword.maxLength)) := by
  unfold Keyword.fromBoxedOther
  split_ifs with hlen
  · have hle : value.toList.length ≤ (utf8Bytes value.toList).length := by
      induction value.toList with
      | nil => simp
      | cons c l ih =>
        have hpos := length_pos_iff.mpr (@String.utf8EncodeChar_ne_nil c)
        rw [utf8Bytes_cons, length_append, length_cons]
        omega
    rw [take_of_length_le (hle.trans hlen), String.ofList_toList]
  · rfl

theorem fromUTF8?_utf8Bytes (value : String) :
    String.fromUTF8? (utf8Bytes value.toList).toByteArray = some value := by
  have hbytes : (utf8Bytes value.toList).toByteArray = value.toByteArray := String.utf8Encode_toList
  rw [hbytes, String.fromUTF8?, dif_pos value.isValidUTF8]
  rfl

/-- **Flags.** A name is the same keyword for an IMAP client and a JMAP client if and only if it is not
empty and, without its case, not one of `jmapOnly`. -/
theorem dialects_agree_iff (value : String) :
    (Flag.parseImap (utf8Bytes value.toList)).map Flag.toKeyword = .ok (Keyword.parse value) ↔
      value ≠ "" ∧ ∀ name ∈ jmapOnly, folded name ≠ folded value := by
  have hsame : ∀ e ∈ Flag.names, Keyword.tryParse (utf8Bytes e.1.toList) = some e.2.toKeyword := by
    decide +kernel
  have hapart : ∀ e ∈ Flag.names, ∀ name ∈ jmapOnly, folded name ≠ folded e.1 := by
    decide +kernel
  have honly : ∀ name ∈ jmapOnly, Keyword.tryParse (utf8Bytes name.toList) ≠ none := by
    decide +kernel
  have hcover : ∀ b ∈ [36, 92], ∀ e ∈ Keyword.names,
      (∃ f ∈ Flag.names, folded f.1 = b :: folded e.1) ∨ ∃ name ∈ jmapOnly, folded name = b :: folded e.1 := by
    decide +kernel
  have hnumbered : ∀ e ∈ Keyword.names, e.2.id.toOption ≠ none := by
    decide +kernel
  by_cases hempty : value = ""
  · subst hempty
    simp [Flag.parseImap, Except.map]
  have hbytes : (utf8Bytes value.toList).isEmpty = false := by
    simpa [utf8Bytes_eq_nil_iff] using hempty
  simp only [Flag.parseImap, hbytes, Bool.false_eq_true, if_false, Keyword.parse, ne_eq, hempty, not_false_eq_true,
    true_and]
  cases himap : tinyMapIgnoreCase Flag.names (utf8Bytes value.toList) with
  | some flag =>
    obtain ⟨name, hmem, hname⟩ := mem_of_tinyMapIgnoreCase himap
    rw [← tryParse_congr hname, hsame _ hmem]
    refine iff_of_true rfl fun name' hname' heq => hapart _ hmem _ hname' (heq.trans hname.symm)
  | none =>
    simp only [fromUTF8?_utf8Bytes, Except.map, Flag.toKeyword, fromBoxedOther_eq, Except.ok.injEq]
    cases hjmap : Keyword.tryParse (utf8Bytes value.toList) with
    | none => exact iff_of_true rfl fun name hname heq => honly _ hname ((tryParse_congr heq).trans hjmap)
    | some k =>
      cases hkey : utf8Bytes value.toList with
      | nil => simp [hkey] at hbytes
      | cons b rest =>
        rw [hkey, Keyword.tryParse] at hjmap
        split_ifs at hjmap with hb
        obtain ⟨n, hn, hrest⟩ := mem_of_tinyMapIgnoreCase hjmap
        have hfold : b :: folded n = folded value := by
          rw [hrest, folded, hkey]
          rcases hb with rfl | rfl <;> rfl
        refine iff_of_false (fun heq => ?_) fun h => ?_
        · have hk : k = .other _ := heq.symm
          exact hnumbered _ hn (congrArg (fun k => k.id.toOption) hk)
        · rcases hcover b (by simpa using hb) _ hn with ⟨f, hf, heq⟩ | ⟨name, hname, heq⟩
          · exact tinyMapIgnoreCase_eq_none_iff.mp himap f hf (heq.trans hfold)
          · exact h name hname (heq.trans hfold)

/-- `\Junk` is `$junk` for a JMAP client and a keyword of its own for an IMAP client. -/
theorem not_dialects_agree : (Flag.parseImap (utf8Bytes "\\Junk".toList)).map Flag.toKeyword ≠ .ok (Keyword.parse "\\Junk") := by
  decide +kernel

end ImapProto

end MailServer
