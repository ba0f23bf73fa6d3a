import Mathlib.Tactic.IntervalCases

/-!
# Base32 text (`utils/src/codec/base32_custom.rs`)

Five bytes are eight letters.  A byte completes one letter or two, and a letter or two complete a byte.

* `Base32Writer`: the letters of bytes, with one for the bits that are left.
* `Base32Reader`: the bytes of letters.
* `toList_text`: the reader gives what was written, and nothing more.
-/

namespace MailServer.Utils

open List

/-- `BASE32_ALPHABET` -/
def base32Alphabet : List UInt8 := "abcdefghijklmnopqrstuvwxyz792013".toList.map Char.toUInt8

/-- `BASE32_INVERSE`.  Of the upper case letters it has those from K on. -/
def base32Inverse (byte : UInt8) : UInt8 :=
  match base32Alphabet.idxOf? byte with
  | some c => .ofNat c
  | none => if 75 ≤ byte ∧ byte ≤ 90 then byte - 65 else 0xFF

/-- The text, as its bytes. -/
structure Base32Writer where
  lastByte : UInt8
  pos : ℕ
  result : List UInt8

namespace Base32Writer

def new : Base32Writer := ⟨0, 0, []⟩

/-- The letters that a byte completes, by its place among five. -/
def letters (place : ℕ) (lastByte byte : UInt8) : UInt8 × UInt8 :=
  match place with
  | 0 => ((byte &&& 0xF8) >>> 3, 0xFF)
  | 1 => ((lastByte &&& 0x07) <<< 2 ||| (byte &&& 0xC0) >>> 6, (byte &&& 0x3E) >>> 1)
  | 2 => ((lastByte &&& 0x01) <<< 4 ||| (byte &&& 0xF0) >>> 4, 0xFF)
  | 3 => ((lastByte &&& 0x0F) <<< 1 ||| byte >>> 7, (byte &&& 0x7C) >>> 2)
  | _ => ((lastByte &&& 0x03) <<< 3 ||| (byte &&& 0xE0) >>> 5, byte &&& 0x1F)

def letter (c : UInt8) : UInt8 := base32Alphabet.getD c.toNat 0

def pushByte (w : Base32Writer) (byte : UInt8) (isRemainder : Bool) : Base32Writer :=
  let (ch1, ch2) := letters (w.pos % 5) w.lastByte byte
  let result := w.result ++ [letter ch1]
  if isRemainder then { w with result }
  else ⟨byte, w.pos + 1, if ch2 ≠ 0xFF then result ++ [letter ch2] else result⟩

def write (w : Base32Writer) (bytes : List UInt8) : Base32Writer := bytes.foldl (fun w byte => w.pushByte byte false) w

def finalize (w : Base32Writer) : List UInt8 := if w.pos % 5 ≠ 0 then (w.pushByte 0 true).result else w.result

end Base32Writer

structure Base32Reader where
  bytes : List UInt8
  lastByte : UInt8
  pos : ℕ

namespace Base32Reader

def new (bytes : List UInt8) : Base32Reader := ⟨bytes, 0, 0⟩

def mapByte (r : Base32Reader) : Option UInt8 × Base32Reader :=
  match r.bytes with
  | [] => (none, r)
  | letter :: bytes =>
    let byte := base32Inverse letter
    if byte ≠ 0xFF then (some byte, { r with bytes, lastByte := byte }) else (none, { r with bytes })

def next (r : Base32Reader) : Option (UInt8 × Base32Reader) :=
  match r.mapByte with
  | (none, _) => none
  | (some byte, r') =>
    let r' := { r' with pos := r'.pos + 1 }
    let low : UInt8 := r'.mapByte.1.getD 0
    match r.pos % 5 with
    | 0 => some (byte <<< 3 ||| low >>> 2, r'.mapByte.2)
    | 1 => some (r.lastByte <<< 6 ||| byte <<< 1 ||| low >>> 4, r'.mapByte.2)
    | 2 => some (r.lastByte <<< 4 ||| byte >>> 1, r')
    | 3 => some (r.lastByte <<< 7 ||| byte <<< 2 ||| low >>> 3, r'.mapByte.2)
    | _ => some (r.lastByte <<< 5 ||| byte, r')

theorem length_mapByte_le (r : Base32Reader) : r.mapByte.2.bytes.length ≤ r.bytes.length := by
  unfold mapByte
  split
  · exact le_rfl
  · next h =>
    dsimp only
    split_ifs <;> simp [h]

theorem length_mapByte_lt {r : Base32Reader} {byte : UInt8} {r' : Base32Reader} (h : r.mapByte = (some byte, r')) :
    r'.bytes.length < r.bytes.length := by
  unfold mapByte at h
  split at h
  · exact absurd h (by simp)
  · next hbytes =>
    dsimp only at h
    split_ifs at h
    · obtain ⟨-, rfl⟩ := Prod.mk.inj h
      simp [hbytes]
    · exact absurd (congrArg Prod.fst h) (by simp)

theorem next_lt {r r' : Base32Reader} {x : UInt8} (h : r.next = some (x, r')) :
    r'.bytes.length < r.bytes.length := by
  unfold next at h
  split at h
  · exact absurd h (by simp)
  · next byte r₁ hr =>
    have hlt := length_mapByte_lt hr
    have hle := length_mapByte_le { r₁ with pos := r₁.pos + 1 }
    dsimp only at h hle
    split at h <;> obtain ⟨-, rfl⟩ := Prod.mk.inj (Option.some.inj h) <;> first | exact hlt | omega

/-- The bytes until the reader stops. -/
def toList (r : Base32Reader) : List UInt8 :=
  match _h : r.next with
  | none => []
  | some (x, r') => x :: toList r'
termination_by r.bytes.length
decreasing_by exact next_lt _h

theorem toList_of_none {r : Base32Reader} (h : r.next = none) : r.toList = [] := by
  rw [toList]
  split
  · rfl
  · next hn => exact absurd (h.symm.trans hn) nofun

theorem toList_of_some {r r' : Base32Reader} {x : UInt8} (h : r.next = some (x, r')) : r.toList = x :: r'.toList := by
  rw [toList]
  split
  · next hn => exact absurd (h.symm.trans hn) nofun
  · next hn =>
    obtain ⟨rfl, rfl⟩ := Prod.mk.inj (Option.some.inj (h.symm.trans hn))
    rfl

end Base32Reader

/-! ## Five bytes -/

section

open Base32Writer Base32Reader

/-- A group of five bits. -/
theorem inverse_letter {c : UInt8} (hc : c &&& 0x1F = c) : base32Inverse (letter c) = c ∧ c ≠ 0xFF := by
  have h : ∀ n < 32, base32Inverse (letter (.ofNat n)) = .ofNat n ∧ UInt8.ofNat n ≠ 0xFF := by decide +kernel
  have hlt : c.toNat < 32 := by
    rw [← hc]
    exact Nat.and_lt_two_pow (n := 5) _ (by decide)
  have := h c.toNat hlt
  rwa [UInt8.ofNat_toNat] at this

theorem mapByte_letter {c : UInt8} (hc : c &&& 0x1F = c) (rest : List UInt8) (last : UInt8) (pos : ℕ) :
    mapByte ⟨letter c :: rest, last, pos⟩ = (some c, ⟨rest, c, pos⟩) := by
  obtain ⟨hinv, hne⟩ := inverse_letter hc
  simp [mapByte, hinv, hne]

variable (a b c d e : UInt8)

/-- The quintets of five bytes. -/
def quintets : List UInt8 :=
  [(a &&& 0xF8) >>> 3, (a &&& 0x07) <<< 2 ||| (b &&& 0xC0) >>> 6, (b &&& 0x3E) >>> 1,
    (b &&& 0x01) <<< 4 ||| (c &&& 0xF0) >>> 4, (c &&& 0x0F) <<< 1 ||| d >>> 7, (d &&& 0x7C) >>> 2,
    (d &&& 0x03) <<< 3 ||| (e &&& 0xE0) >>> 5, e &&& 0x1F]

theorem and_quintets : ∀ x ∈ quintets a b c d e, x &&& 0x1F = x := by
  simp only [quintets, mem_cons, not_mem_nil, or_false, forall_eq_or_imp, forall_eq]
  refine ⟨?_, ?_, ?_, ?_, ?_, ?_, ?_, ?_⟩ <;>
  · apply UInt8.toBitVec_inj.1
    ext i hi
    interval_cases i <;> simp

/-- The text of bytes: five at a time, and then what is left. -/
def text : List UInt8 → List UInt8
  | a :: b :: c :: d :: e :: rest => (quintets a b c d e).map letter ++ text rest
  | [a, b, c, d] => ((quintets a b c d 0).take 7).map letter
  | [a, b, c] => ((quintets a b c 0 0).take 5).map letter
  | [a, b] => ((quintets a b 0 0 0).take 4).map letter
  | [a] => ((quintets a 0 0 0 0).take 2).map letter
  | [] => []

theorem second_ne (x : UInt8) : (x &&& 0x3E) >>> 1 ≠ 0xFF ∧ (x &&& 0x7C) >>> 2 ≠ 0xFF ∧ x &&& 0x1F ≠ 0xFF := by
  have h := and_quintets 0 x 0 x x
  exact ⟨(inverse_letter (h _ (by simp [quintets]))).2, (inverse_letter (h _ (by simp [quintets]))).2,
    (inverse_letter (h _ (by simp [quintets]))).2⟩

theorem finalize_write (w : Base32Writer) (hpos : w.pos % 5 = 0) (bytes : List UInt8) :
    (w.write bytes).finalize = w.result ++ text bytes := by
  have h1 : (w.pos + 1) % 5 = 1 := by omega
  have h2 : (w.pos + 1 + 1) % 5 = 2 := by omega
  have h3 : (w.pos + 1 + 1 + 1) % 5 = 3 := by omega
  have h4 : (w.pos + 1 + 1 + 1 + 1) % 5 = 4 := by omega
  match bytes with
  | a :: b :: c :: d :: e :: rest =>
    have hblock : w.write (a :: b :: c :: d :: e :: rest) =
        (⟨e, w.pos + 5, w.result ++ (quintets a b c d e).map letter⟩ : Base32Writer).write rest := by
      simp [write, pushByte, letters, hpos, h1, h2, h3, h4, quintets, second_ne]
    rw [hblock, finalize_write _ (by show (w.pos + 5) % 5 = 0; omega) rest, text, append_assoc]
  | [a, b, c, d] => simp [write, finalize, pushByte, letters, hpos, h1, h2, h3, h4, quintets, second_ne, text]
  | [a, b, c] => simp [write, finalize, pushByte, letters, hpos, h1, h2, h3, quintets, second_ne, text]
  | [a, b] => simp [write, finalize, pushByte, letters, hpos, h1, h2, quintets, second_ne, text]
  | [a] => simp [write, finalize, pushByte, letters, hpos, h1, quintets, text]
  | [] => simp [write, finalize, hpos, text]

/-- The bytes of the quintets, one after the other. -/
theorem next_quintets (last : UInt8) {pos : ℕ} (hpos : pos % 5 = 0) :
    ∃ l₀ l₁ l₂ l₃ l₄ l₅ l₆ l₇, quintets a b c d e = [l₀, l₁, l₂, l₃, l₄, l₅, l₆, l₇] ∧
      (∀ rest, next ⟨letter l₀ :: letter l₁ :: rest, last, pos⟩ = some (a, ⟨rest, l₁, pos + 1⟩)) ∧
      (∀ rest, next ⟨letter l₂ :: letter l₃ :: rest, l₁, pos + 1⟩ = some (b, ⟨rest, l₃, pos + 2⟩)) ∧
      (∀ rest, next ⟨letter l₄ :: rest, l₃, pos + 2⟩ = some (c, ⟨rest, l₄, pos + 3⟩)) ∧
      (∀ rest, next ⟨letter l₅ :: letter l₆ :: rest, l₄, pos + 3⟩ = some (d, ⟨rest, l₆, pos + 4⟩)) ∧
      ∀ rest, next ⟨letter l₇ :: rest, l₆, pos + 4⟩ = some (e, ⟨rest, l₇, pos + 5⟩) := by
  have hall := and_quintets a b c d e
  refine ⟨_, _, _, _, _, _, _, _, rfl, ?_⟩
  simp only [quintets, mem_cons, not_mem_nil, or_false, forall_eq_or_imp, forall_eq] at hall
  obtain ⟨h0, h1, h2, h3, h4, h5, h6, h7⟩ := hall
  have p1 : (pos + 1) % 5 = 1 := by omega
  have p2 : (pos + 2) % 5 = 2 := by omega
  have p3 : (pos + 3) % 5 = 3 := by omega
  have p4 : (pos + 4) % 5 = 4 := by omega
  simp only [Base32Reader.next, mapByte_letter h0, mapByte_letter h1, mapByte_letter h2, mapByte_letter h3, mapByte_letter h4,
    mapByte_letter h5, mapByte_letter h6, mapByte_letter h7, hpos, p1, p2, p3, p4, Option.some.injEq, Prod.mk.injEq, and_true, forall_const]
  refine ⟨?_, ?_, ?_, ?_, ?_⟩ <;>
  · apply UInt8.toBitVec_inj.1
    ext i hi
    interval_cases i <;> simp

theorem toList_end (last : UInt8) (pos : ℕ) : toList ⟨[], last, pos⟩ = [] := toList_of_none rfl

/-- The reader of a text has no byte left where the text ends. -/
theorem toList_text (bytes : List UInt8) (last : UInt8) {pos : ℕ} (hpos : pos % 5 = 0) :
    toList ⟨text bytes, last, pos⟩ = bytes := by
  match bytes with
  | a :: b :: c :: d :: e :: rest =>
    obtain ⟨l₀, l₁, l₂, l₃, l₄, l₅, l₆, l₇, hl, h0, h1, h2, h3, h4⟩ := next_quintets a b c d e last hpos
    have ih := toList_text rest l₇ (show (pos + 5) % 5 = 0 by omega)
    simp [text, hl, toList_of_some (h0 _), toList_of_some (h1 _), toList_of_some (h2 _), toList_of_some (h3 _),
      toList_of_some (h4 _), ih]
  | [a, b, c, d] =>
    obtain ⟨l₀, l₁, l₂, l₃, l₄, l₅, l₆, l₇, hl, h0, h1, h2, h3, -⟩ := next_quintets a b c d 0 last hpos
    simp [text, hl, toList_of_some (h0 _), toList_of_some (h1 _), toList_of_some (h2 _), toList_of_some (h3 _), toList_end]
  | [a, b, c] =>
    obtain ⟨l₀, l₁, l₂, l₃, l₄, l₅, l₆, l₇, hl, h0, h1, h2, -⟩ := next_quintets a b c 0 0 last hpos
    simp [text, hl, toList_of_some (h0 _), toList_of_some (h1 _), toList_of_some (h2 _), toList_end]
  | [a, b] =>
    obtain ⟨l₀, l₁, l₂, l₃, l₄, l₅, l₆, l₇, hl, h0, h1, -⟩ := next_quintets a b 0 0 0 last hpos
    simp [text, hl, toList_of_some (h0 _), toList_of_some (h1 _), toList_end]
  | [a] =>
    obtain ⟨l₀, l₁, l₂, l₃, l₄, l₅, l₆, l₇, hl, h0, -⟩ := next_quintets a 0 0 0 0 last hpos
    simp [text, hl, toList_of_some (h0 _), toList_end]
  | [] => exact toList_end last pos

end

/-- **Round trip.** -/
theorem base32_roundtrip (bytes : List UInt8) :
    (Base32Reader.new (Base32Writer.new.write bytes).finalize).toList = bytes := by
  rw [finalize_write _ rfl]
  exact toList_text bytes 0 rfl

end MailServer.Utils
