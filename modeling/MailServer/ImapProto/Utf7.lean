import Mathlib.Algebra.Group.Nat.Defs
import MailServer.Lib.Utf16

/-!
# Names in modified UTF-7 (`imap-proto/src/utf7.rs`)

Between `&` and `-` the units of a string are written in groups of six bits.

* `utf7Encode`: a loop over units, with the bits that are left of the last one.
* `utf7Decode`: a loop over characters, with the bits of a unit that is not complete.
* `utf7Decode_utf7Encode`: the decoder undoes the encoder.
* `identity_or_none_iff`: the names without `&` that are read as themselves or not at all.
-/

namespace MailServer.ImapProto

open MailServer.Lib List

/-- `UTF_7_MAP` -/
def utf7Map : List Char := "ABCDEFGHIJKLMNOPQRSTUVWXYZabcdefghijklmnopqrstuvwxyz0123456789+,".toList

/-- `UTF_7_RANK`; none is `0xff` or no entry. -/
def utf7Rank (ch : Char) : Option ℕ := utf7Map.idxOf? ch

/-- What the loop of `utf7_decode` pushes from a state on. -/
def decodeFrom : Bool → ℕ → ℕ → List Char → Option (List ℕ)
  | _, _, _, [] => some []
  | true, bits, v, ch :: text =>
    if ch = '-' then decodeFrom false 0 0 text
    else if 127 < ch.toNat then none
    else
      match utf7Rank ch with
      | none => none
      | some rank =>
        let v := (v <<< 6 ||| rank) % 2 ^ 32
        let bits := bits + 6
        if 16 ≤ bits then
          (decodeFrom true (bits - 16) v text).map ((v >>> (bits - 16) &&& 0xffff) :: ·)
        else decodeFrom true bits v text
  -- at the end `&` stands for itself
  | false, _, _, [ch] => some [ch.toNat % 0x10000]
  | false, bits, v, ch :: next :: text =>
    if ch = '&' then
      if next = '-' then (decodeFrom false bits v text).map ('&'.toNat :: ·)
      else decodeFrom true bits v (next :: text)
    else (decodeFrom false bits v (next :: text)).map (ch.toNat % 0x10000 :: ·)

def utf7Decode (text : List Char) : Option (List Char) := (decodeFrom false 0 0 text).bind fromUtf16

def letter (i : ℕ) : Char := utf7Map.getD (i &&& 0x3f) '-'

/-- The inner loop of `utf7_encode`. -/
def letters (u : ℕ) (bits : ℕ) : List Char :=
  if 6 ≤ bits then letter (u >>> (bits - 6)) :: letters u (bits - 6) else []

/-- The end of a shift. -/
def unshift (u bits : ℕ) : List Char := if 0 < bits then [letter (u <<< (6 - bits)), '-'] else ['-']

/-- What `utf7_encode` pushes from a state on. -/
def encodeFrom : Bool → ℕ → ℕ → List ℕ → List Char
  | shifted, bits, u, [] => if shifted then unshift u bits else []
  | shifted, bits, u, ch :: units =>
    if 0x20 ≤ ch ∧ ch < 0x7f then
      (if shifted then unshift u bits else []) ++ (if ch = 0x26 then ['&', '-'] else [Char.ofNat ch]) ++
        encodeFrom false (if shifted then 0 else bits) u units
    else
      let u := (u <<< 16 ||| ch) % 2 ^ 32
      (if shifted then [] else ['&']) ++ letters u (bits + 16) ++ encodeFrom true ((bits + 16) % 6) u units

def utf7Encode (text : List Char) : List Char := encodeFrom false 0 0 (encodeUtf16 text)

/-! ## What was encoded -/

theorem letter_spec (i : ℕ) : letter i ≠ '-' ∧ ¬ 127 < (letter i).toNat ∧ utf7Rank (letter i) = some (i % 64) := by
  have hall : ∀ n < 64, utf7Map.getD n '-' ≠ '-' ∧ ¬ 127 < (utf7Map.getD n '-').toNat ∧
      utf7Rank (utf7Map.getD n '-') = some n := by
    decide +kernel
  have hi : i &&& 0x3f = i % 64 := Nat.and_two_pow_sub_one_eq_mod i 6
  rw [letter, hi]
  exact hall _ (Nat.mod_lt _ (by decide))

/-- The bits after a letter. -/
def absorb (v i : ℕ) : ℕ := (v * 64 + i % 64) % 2 ^ 32

/-- A letter completes a unit or not. -/
theorem decodeFrom_letter (bits v i : ℕ) (text : List Char) : decodeFrom true bits v (letter i :: text) =
    if 10 ≤ bits then
      (decodeFrom true (bits - 10) (absorb v i) text).map (absorb v i / 2 ^ (bits - 10) % 0x10000 :: ·)
    else decodeFrom true (bits + 6) (absorb v i) text := by
  obtain ⟨hdash, hascii, hrank⟩ := letter_spec i
  have hor : v <<< 6 ||| i % 64 = v * 64 + i % 64 := by
    rw [← Nat.shiftLeft_add_eq_or_of_lt (Nat.mod_lt _ (by decide) : i % 64 < 2 ^ 6), Nat.shiftLeft_eq]
  have hand (n : ℕ) : n &&& 0xffff = n % 0x10000 := Nat.and_two_pow_sub_one_eq_mod n 16
  rw [decodeFrom, if_neg hdash, if_neg hascii, hrank]
  dsimp only
  rw [hor, hand, Nat.shiftRight_eq_div_pow, ← absorb]
  by_cases hbits : 10 ≤ bits
  · rw [if_pos (by omega), if_pos hbits, show bits + 6 - 16 = bits - 10 by omega]
  · rw [if_neg (by omega), if_neg hbits]

/-- What the decoder still has of the last unit: nothing where the encoder has written all of it. -/
inductive Lag (u v : ℕ) : ℕ → ℕ → List ℕ → Prop
  | none : Lag u v 0 0 []
  | two {x : ℕ} : x < 0x10000 → u % 4 = x % 4 → v % 0x4000 = x / 4 → Lag u v 2 14 [x]
  | four {x : ℕ} : x < 0x10000 → u % 16 = x % 16 → v % 0x1000 = x / 16 → Lag u v 4 12 [x]

theorem decodeFrom_unshift {u v bits lag : ℕ} {pending : List ℕ} (h : Lag u v bits lag pending) (text : List Char) :
    decodeFrom true lag v (unshift u bits ++ text) = (decodeFrom false 0 0 text).map (pending ++ ·) := by
  have hdash (bits v : ℕ) : decodeFrom true bits v ('-' :: text) = decodeFrom false 0 0 text := by
    rw [decodeFrom, if_pos rfl]
  cases h with
  | none => simp [unshift, hdash]
  | @two x hx hu hv =>
    have hx' : absorb v (u * 16) / 16 % 0x10000 = x := by
      unfold absorb
      omega
    simp [unshift, decodeFrom_letter, Nat.shiftLeft_eq, hdash, hx']
  | @four x hx hu hv =>
    have hx' : absorb v (u * 4) / 4 % 0x10000 = x := by
      unfold absorb
      omega
    simp [unshift, decodeFrom_letter, Nat.shiftLeft_eq, hdash, hx']

/-- A further unit: the decoder has what the encoder has written, and lags behind again. -/
theorem decodeFrom_letters {u v bits lag ch w : ℕ} {pending : List ℕ} (h : Lag u v bits lag pending)
    (hch : ch < 0x10000) (hw : w = (u * 0x10000 + ch) % 2 ^ 32) :
    ∃ v' lag' done pending', Lag w v' ((bits + 16) % 6) lag' pending' ∧ done ++ pending' = pending ++ [ch] ∧
      ∀ text, decodeFrom true lag v (letters w (bits + 16) ++ text) =
        (decodeFrom true lag' v' text).map (done ++ ·) := by
  cases h with
  | none =>
    refine ⟨absorb (absorb v (w / 1024)) (w / 16), 12, [], [ch], .four hch ?_ ?_, rfl, fun text => ?_⟩
    · omega
    · unfold absorb
      omega
    · simp [letters, decodeFrom_letter, Nat.shiftRight_eq_div_pow]
  | @two x hx hu hv =>
    have hx' : absorb v (w / 4096) / 16 % 0x10000 = x := by
      unfold absorb
      omega
    have hch' : absorb (absorb (absorb v (w / 4096)) (w / 64)) w % 0x10000 = ch := by
      unfold absorb
      omega
    refine ⟨absorb (absorb (absorb v (w / 4096)) (w / 64)) w, 0, [x, ch], [], .none, rfl, fun text => ?_⟩
    simp [letters, decodeFrom_letter, Nat.shiftRight_eq_div_pow, hx', hch', Function.comp_def]
  | @four x hx hu hv =>
    have hx' : absorb v (w / 16384) / 4 % 0x10000 = x := by
      unfold absorb
      omega
    refine ⟨absorb (absorb (absorb v (w / 16384)) (w / 256)) (w / 4), 14, [x], [ch], .two hch ?_ ?_, rfl, fun text => ?_⟩
    · omega
    · unfold absorb
      omega
    · simp [letters, decodeFrom_letter, Nat.shiftRight_eq_div_pow, hx']

/-- A character that is not shifted is a unit, whether the whole text ends with it or not. -/
theorem decodeFrom_plain {ch : Char} (h : ch ≠ '&') (bits v : ℕ) (text : List Char) :
    decodeFrom false bits v (ch :: text) = (decodeFrom false bits v text).map (ch.toNat % 0x10000 :: ·) := by
  cases text with
  | nil => rfl
  | cons next text => rw [decodeFrom, if_neg h]

/-- The decoder on what the encoder pushes from a state on. -/
theorem decodeFrom_encodeFrom {units : List ℕ} (hall : ∀ u ∈ units, u < 0x10000) :
    (∀ u, decodeFrom false 0 0 (encodeFrom false 0 u units) = some units) ∧
      ∀ {u v bits lag pending}, Lag u v bits lag pending →
        decodeFrom true lag v (encodeFrom true bits u units) = some (pending ++ units) := by
  induction units with
  | nil =>
    refine ⟨fun _ => rfl, fun h => ?_⟩
    have hclose := decodeFrom_unshift h []
    rw [append_nil] at hclose
    rw [encodeFrom, if_pos rfl, hclose]
    rfl
  | cons ch units ih =>
    obtain ⟨hplain, hshifted⟩ := ih fun u hu => hall u (mem_cons_of_mem _ hu)
    by_cases hprint : 0x20 ≤ ch ∧ ch < 0x7f
    · have hdirect (u : ℕ) : decodeFrom false 0 0
          ((if ch = 0x26 then ['&', '-'] else [Char.ofNat ch]) ++ encodeFrom false 0 u units) = some (ch :: units) := by
        split_ifs with hamp
        · subst hamp
          simp [decodeFrom, hplain]
        · have hchar : ∀ n < 0x7f, n ≠ 0x26 → Char.ofNat n ≠ '&' ∧ (Char.ofNat n).toNat % 0x10000 = n := by
            decide +kernel
          obtain ⟨hne, hval⟩ := hchar ch hprint.2 hamp
          rw [singleton_append, decodeFrom_plain hne, hplain, hval]
          rfl
      refine ⟨fun u => ?_, fun {u v bits lag pending} h => ?_⟩
      · simpa [encodeFrom, hprint] using hdirect u
      · rw [encodeFrom, if_pos hprint, if_pos rfl, append_assoc, decodeFrom_unshift h, if_pos rfl, hdirect]
        rfl
    · have hopen {u v bits lag pending} (h : Lag u v bits lag pending) : decodeFrom true lag v
          (letters ((u <<< 16 ||| ch) % 2 ^ 32) (bits + 16) ++
            encodeFrom true ((bits + 16) % 6) ((u <<< 16 ||| ch) % 2 ^ 32) units) = some (pending ++ ch :: units) := by
        have hch := hall ch mem_cons_self
        have hor : u <<< 16 ||| ch = u * 0x10000 + ch := by
          rw [← Nat.shiftLeft_add_eq_or_of_lt hch, Nat.shiftLeft_eq]
        obtain ⟨v', lag', done, pending', h', hsplit, hread⟩ := decodeFrom_letters h hch (congrArg (· % 2 ^ 32) hor)
        rw [hread, hshifted h', Option.map_some, ← append_assoc, hsplit, append_assoc, singleton_append]
      refine ⟨fun u => ?_, fun {u v bits lag pending} h => ?_⟩
      · have hfirst := hopen (.none : Lag u 0 0 0 [])
        rw [letters, if_pos (by decide), cons_append] at hfirst
        simp only [encodeFrom, hprint, if_false, Bool.false_eq_true]
        rw [letters, if_pos (by decide), singleton_append, cons_append, cons_append, decodeFrom, if_neg (letter_spec _).1, hfirst]
        rfl
      · simp only [encodeFrom, hprint]
        exact hopen h

theorem encodeUtf16_lt (s : List Char) : ∀ u ∈ encodeUtf16 s, u < 0x10000 := by
  intro u hu
  obtain ⟨c, -, hu⟩ := mem_flatMap.mp hu
  have hc := toNat_cases c
  unfold utf16Units at hu
  split_ifs at hu
  · rw [mem_singleton] at hu
    omega
  · rw [mem_cons, mem_singleton] at hu
    omega

/-- **Round trip.** -/
theorem utf7Decode_utf7Encode (s : List Char) : utf7Decode (utf7Encode s) = some s := by
  rw [utf7Decode, utf7Encode, (decodeFrom_encodeFrom (encodeUtf16_lt s)).1, Option.bind_some, fromUtf16_encodeUtf16]

/-! ## Names that are not shifted -/

theorem decodeFrom_of_not_mem {s : List Char} (h : '&' ∉ s) :
    decodeFrom false 0 0 s = some (s.map fun c => c.toNat % 0x10000) := by
  induction s with
  | nil => rfl
  | cons c s ih =>
    rw [mem_cons, not_or] at h
    rw [decodeFrom_plain (Ne.symm h.1), ih h.2]
    rfl

/-- A character above is two units. -/
theorem length_encodeUtf16 (s : List Char) : s.length ≤ (encodeUtf16 s).length ∧
    ((encodeUtf16 s).length = s.length → ∀ c ∈ s, c.toNat < 0x10000) := by
  induction s with
  | nil => exact ⟨Nat.le_refl _, fun _ c hc => absurd hc not_mem_nil⟩
  | cons c s ih =>
    obtain ⟨hle, hall⟩ := ih
    rw [encodeUtf16, flatMap_cons, ← encodeUtf16, utf16Units, length_append, length_cons]
    split_ifs with hlow
    · rw [length_singleton]
      exact ⟨by omega, fun h => forall_mem_cons.mpr ⟨hlow, hall (by omega)⟩⟩
    · rw [length_cons, length_singleton]
      exact ⟨by omega, fun h => absurd h (by omega)⟩

/-- **Identity.** A name without `&` is read as itself or not at all if and only if its characters are below
the first 65536, or the lower halves of their numbers leave a surrogate alone. -/
theorem identity_or_none_iff {s : List Char} (h : '&' ∉ s) : utf7Decode s = some s ∨ utf7Decode s = none ↔
    (∀ c ∈ s, c.toNat < 0x10000) ∨ ¬ Paired (s.map fun c => c.toNat % 0x10000) := by
  rw [utf7Decode, decodeFrom_of_not_mem h, Option.bind_some, fromUtf16_eq_none_iff]
  refine or_congr_left ⟨fun hsame => ?_, fun hlow => ?_⟩
  · have hunits := encodeUtf16_of_fromUtf16 (by simp; omega) hsame
    exact (length_encodeUtf16 s).2 (by rw [hunits, length_map])
  · have hunits : encodeUtf16 s = s.map fun c => c.toNat % 0x10000 := by
      clear h
      induction s with
      | nil => rfl
      | cons c s ih =>
        obtain ⟨hc, hs⟩ := forall_mem_cons.mp hlow
        rw [encodeUtf16, flatMap_cons, ← encodeUtf16, ih hs, utf16Units, if_pos hc, map_cons, Nat.mod_eq_of_lt hc]
        rfl
    rw [← hunits, fromUtf16_encodeUtf16]

theorem identity_or_none_umlaut : utf7Decode ['ü', 'b'] = some ['ü', 'b'] ∨ utf7Decode ['ü', 'b'] = none :=
  (identity_or_none_iff (by decide)).mpr (.inl (forall_mem_cons.mpr ⟨by decide, forall_mem_singleton.mpr (by decide)⟩))

/-- A character above loses its upper half. -/
theorem not_identity : '&' ∉ [Char.ofNat 0x1F600] ∧
    ¬ (utf7Decode [Char.ofNat 0x1F600] = some [Char.ofNat 0x1F600] ∨ utf7Decode [Char.ofNat 0x1F600] = none) := by
  decide +kernel

end MailServer.ImapProto
