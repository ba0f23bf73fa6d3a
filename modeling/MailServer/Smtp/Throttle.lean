import MailServer.Lib.Bytes
import MailServer.Lib.Utf8
import Mathlib.Data.List.Nodup

/-!
# The counters of rate limiters and quotas (`smtp/src/core/throttle.rs`)

A counter is named by a hash of the variables that a limiter selects, one behind the other, and of what it limits.

* `QueueRateLimiter.newKey`, `QueueQuota.newKey`: the names.
* `RatesApart`, `QuotasApart`: no two uses of a counter that have nothing to do with each other.
* `newKey_iff`: which limiters keep their counters apart.
-/

namespace MailServer.Smtp.Throttle

open MailServer.Lib List Function

/-! ## Names of counters -/

/-- The variables in the order in which they are hashed. -/
inductive ThrottleVariable where
  | rcpt | rcptDomain | sender | senderDomain | heloDomain | authenticatedAs | listener | mx | remoteIp | localIp
  deriving DecidableEq

open ThrottleVariable

namespace ThrottleVariable

/-- `THROTTLE_RCPT` to `THROTTLE_HELO_DOMAIN` -/
def flag : ThrottleVariable → UInt16
  | rcpt => 0x1
  | rcptDomain => 0x2
  | sender => 0x4
  | senderDomain => 0x8
  | authenticatedAs => 0x10
  | listener => 0x20
  | mx => 0x40
  | remoteIp => 0x80
  | localIp => 0x100
  | heloDomain => 0x200

def forQuotas : List ThrottleVariable := [rcpt, rcptDomain, sender, senderDomain]

def all : List ThrottleVariable := forQuotas ++ [heloDomain, authenticatedAs, listener, mx, remoteIp, localIp]

/-- The variables that are never hashed as nothing. -/
def isSender (v : ThrottleVariable) : Bool := v = sender ∨ v = senderDomain

end ThrottleVariable

/-- `ResolveVariable` -/
abbrev Envelope := ThrottleVariable → String

/-- The bytes a hasher has been given. -/
structure Hasher where
  bytes : List UInt8
  deriving DecidableEq

namespace Hasher

def new : Hasher := ⟨[]⟩

def update (h : Hasher) (bytes : List UInt8) : Hasher := ⟨h.bytes ++ bytes⟩

def updateStr (h : Hasher) (s : String) : Hasher := h.update (utf8Bytes s.toList)

end Hasher

/-- The hash of what a hasher has been given; it is taken to be injective. -/
structure ThrottleKey where
  hash : Hasher
  deriving DecidableEq

def isSelected (keys : UInt16) (v : ThrottleVariable) : Bool := keys &&& v.flag ≠ 0

/-- The text of a variable, which for an empty sender is not empty. -/
def shown (e : Envelope) (v : ThrottleVariable) : String :=
  if v.isSender then if e v ≠ "" then e v else "<>" else e v

def hashVariables (keys : UInt16) (e : Envelope) (vars : List ThrottleVariable) : Hasher :=
  vars.foldl (fun hasher v => if isSelected keys v then hasher.updateStr (shown e v) else hasher) Hasher.new

@[ext] structure Duration where
  secs : UInt64
  nanos : UInt32
  deriving DecidableEq

@[ext] structure Rate where
  count : UInt64
  period : Duration
  deriving DecidableEq

structure QueueRateLimiter where
  keys : UInt16
  rate : Rate

structure QueueQuota where
  keys : UInt16
  size : Option UInt64
  messages : Option UInt64

/-- Where a rate is limited. -/
inductive ThrottleContext where
  | inbound | outbound
  deriving DecidableEq

def ThrottleContext.text : ThrottleContext → String
  | inbound => "inbound"
  | outbound => "outbound"

/-- `u64::to_be_bytes` -/
def u64BeBytes (n : UInt64) : List UInt8 := beBytes 8 n.toNat

/-- `u64::to_ne_bytes`, on machines that put the low byte first. -/
def u64NeBytes (n : UInt64) : List UInt8 := (u64BeBytes n).reverse

def QueueQuota.newKey (q : QueueQuota) (e : Envelope) : ThrottleKey :=
  let hasher := hashVariables q.keys e forQuotas
  let hasher := match q.messages with
    | some messages => hasher.update (u64NeBytes messages)
    | none => hasher
  let hasher := match q.size with
    | some size => hasher.update (u64NeBytes size)
    | none => hasher
  ⟨hasher⟩

def QueueRateLimiter.newKey (l : QueueRateLimiter) (e : Envelope) (context : ThrottleContext) : ThrottleKey :=
  let hasher := hashVariables l.keys e all
  let hasher := hasher.update (u64BeBytes l.rate.period.secs)
  let hasher := hasher.update (u64BeBytes l.rate.count)
  ⟨hasher.updateStr context.text⟩

/-! ## The texts of variables -/

section

variable {V W : List ThrottleVariable}

/-- The texts of some variables, one behind the other. -/
def text (f : ThrottleVariable → List Char) (V : List ThrottleVariable) : List Char := V.flatMap f

theorem text_cons (f : ThrottleVariable → List Char) (v : ThrottleVariable) (V : List ThrottleVariable) :
    text f (v :: V) = f v ++ text f V := rfl

variable {f : ThrottleVariable → List Char} {v : ThrottleVariable}

theorem text_update (hv : v ∉ V) (z : List Char) : text (update f v z) V = text f V := by
  refine flatMap_congr ?_
  intro w hw
  rw [update_of_ne]
  rintro rfl
  exact hv hw

/-- A text is possible for each variable. -/
def Showable (f : ThrottleVariable → List Char) : Prop := ∀ v, v.isSender = true → f v ≠ []

theorem Showable.update (hf : Showable f) {z : List Char}
    (hz : v.isSender = true → z ≠ []) : Showable (update f v z) := by
  intro w hw
  by_cases hwv : w = v
  · subst hwv
    rw [update_self]
    exact hz hw
  · rw [update_of_ne hwv]
    exact hf w hw

theorem showable_const (c : Char) : Showable fun _ => [c] := fun _ _ => cons_ne_nil c []

theorem exists_text (hV : V.Nodup) (hne : V ≠ []) (z : List Char)
    (hlen : (V.filter isSender).length ≤ z.length) :
    ∃ f, Showable f ∧ text f V = z := by
  induction V generalizing z with
  | nil => exact absurd rfl hne
  | cons v V ih =>
    obtain ⟨hv, hV⟩ := nodup_cons.mp hV
    by_cases hrest : V = []
    · subst hrest
      refine ⟨update (fun _ => ['x']) v z, (showable_const 'x').update ?_, ?_⟩
      · rintro hsender rfl
        simp [hsender] at hlen
      · rw [text_cons, update_self]
        exact append_nil z
    · by_cases hsender : v.isSender = true
      · rw [filter_cons_of_pos hsender] at hlen
        match z with
        | [] => simp at hlen
        | c :: z =>
          obtain ⟨f, hf, htext⟩ := ih hV hrest z (Nat.le_of_succ_le_succ hlen)
          refine ⟨update f v [c], hf.update fun _ => cons_ne_nil c [], ?_⟩
          rw [text_cons, update_self, text_update hv, htext]
          rfl
      · rw [filter_cons_of_neg hsender] at hlen
        obtain ⟨f, hf, htext⟩ := ih hV hrest z hlen
        refine ⟨update f v [], hf.update fun h => absurd h hsender, ?_⟩
        rw [text_cons, update_self, text_update hv, htext]
        rfl

/-- The one has no text, and the other always has. -/
def Unlike (V W : List ThrottleVariable) : Prop := V = [] ∧ ∃ v ∈ W, v.isSender = true

theorem text_ne_of_unlike {g : ThrottleVariable → List Char} (hf : Showable f) (h : Unlike V W) :
    text f W ≠ text g V := by
  obtain ⟨rfl, v, hv, hsender⟩ := h
  intro hnil
  exact hf v hsender (flatMap_eq_nil_iff.mp hnil v hv)

end

section

variable {V W : List ThrottleVariable}

/-- No address reads like the empty one is shown. -/
def Named (e : Envelope) : Prop := ∀ v, v.isSender = true → e v ≠ "<>"

def shownText (e : Envelope) (v : ThrottleVariable) : List Char := (shown e v).toList

variable {v : ThrottleVariable}

theorem shownText_of_free (hv : v.isSender = false) (e : Envelope) :
    shownText e v = (e v).toList := by
  simp [shownText, shown, hv]

theorem showable_shownText (e : Envelope) : Showable (shownText e) := by
  intro v hv
  unfold shownText shown
  split_ifs with h
  · exact fun hnil => h (String.toList_eq_nil_iff.mp hnil)
  · decide

theorem exists_envelope {f : ThrottleVariable → List Char} (hf : Showable f) :
    ∃ e, Named e ∧ ∀ v, shownText e v = f v := by
  refine ⟨fun v => if v.isSender ∧ f v = "<>".toList then "" else String.ofList (f v), ?_, ?_⟩
  · intro v hv h
    dsimp only at h
    split_ifs at h with hempty
    · exact absurd h (by decide)
    · exact hempty ⟨hv, by rw [← h, String.toList_ofList]⟩
  · intro v
    by_cases hv : v.isSender = true
    · by_cases hempty : f v = "<>".toList
      · simp [shownText, shown, hv, hempty]
      · have hne : String.ofList (f v) ≠ "" := by
          intro h
          have hnil := congrArg String.toList h
          rw [String.toList_ofList] at hnil
          exact hf v hv hnil
        have hother : ¬ f v = ['<', '>'] := hempty
        simp [shownText, shown, hother, hne]
    · rw [shownText_of_free (Bool.eq_false_iff.mpr hv)]
      simp [hv]

theorem eq_of_shownText {e₁ e₂ : Envelope} (hnamed : v.isSender = true → e₁ v ≠ "<>" ∧ e₂ v ≠ "<>")
    (h : shownText e₁ v = shownText e₂ v) : e₁ v = e₂ v := by
  have heq : shown e₁ v = shown e₂ v := String.toList_injective h
  unfold shown at heq
  by_cases hv : v.isSender = true
  · obtain ⟨h₁, h₂⟩ := hnamed hv
    split_ifs at heq with he₁ he₂ he₂
    · exact heq
    · exact absurd heq h₁
    · exact absurd heq.symm h₂
    · rw [not_not] at he₁ he₂
      rw [he₁, he₂]
  · rw [if_neg hv, if_neg hv] at heq
    exact heq

end

/-! ## Counters that are shared -/

section

variable {V W : List ThrottleVariable}

/-- The variables that are selected, in the order in which they are hashed. -/
def selected (keys : UInt16) (vars : List ThrottleVariable) : List ThrottleVariable := vars.filter (isSelected keys)

theorem foldl_update (keys : UInt16) (e : Envelope) (vars : List ThrottleVariable) : ∀ h : Hasher,
    vars.foldl (fun hasher v => if isSelected keys v then hasher.updateStr (shown e v) else hasher) h =
      ⟨h.bytes ++ utf8Bytes (text (shownText e) (selected keys vars))⟩ := by
  induction vars with
  | nil =>
    intro h
    show h = ⟨h.bytes ++ []⟩
    rw [append_nil]
  | cons v vars ih =>
    intro h
    rw [foldl_cons, ih]
    unfold selected
    by_cases hv : isSelected keys v = true
    · rw [if_pos hv, filter_cons_of_pos hv, text_cons, utf8Bytes_append, ← append_assoc]
      rfl
    · rw [if_neg hv, filter_cons_of_neg hv]

theorem hashVariables_eq (keys : UInt16) (e : Envelope) (vars : List ThrottleVariable) :
    hashVariables keys e vars = ⟨utf8Bytes (text (shownText e) (selected keys vars))⟩ :=
  foldl_update keys e vars Hasher.new

/-- Two envelopes have one text. -/
def Shared (named : Bool) (V W : List ThrottleVariable) (e₁ e₂ : Envelope) : Prop :=
  (named = true → Named e₁ ∧ Named e₂) ∧ text (shownText e₁) V = text (shownText e₂) W

theorem exists_shared (named : Bool) {f₁ f₂ : ThrottleVariable → List Char} (h₁ : Showable f₁) (h₂ : Showable f₂)
    (h : text f₁ V = text f₂ W) :
    ∃ e₁ e₂, Shared named V W e₁ e₂ ∧ (∀ v, shownText e₁ v = f₁ v) ∧ ∀ v, shownText e₂ v = f₂ v := by
  obtain ⟨e₁, hnamed₁, he₁⟩ := exists_envelope h₁
  obtain ⟨e₂, hnamed₂, he₂⟩ := exists_envelope h₂
  refine ⟨e₁, e₂, ⟨fun _ => ⟨hnamed₁, hnamed₂⟩, ?_⟩, he₁, he₂⟩
  rw [show shownText e₁ = f₁ from funext he₁, show shownText e₂ = f₂ from funext he₂]
  exact h

theorem exists_shared_of_not_unlike (named : Bool) (hV : V.Nodup) (hW : W.Nodup) (h : ¬ Unlike V W)
    (h' : ¬ Unlike W V) : ∃ e₁ e₂, Shared named V W e₁ e₂ := by
  have hempty : ∀ {U : List ThrottleVariable}, (¬ ∃ v ∈ U, v.isSender = true) → ∃ f, Showable f ∧ text f U = [] := by
    intro U hU
    refine ⟨fun v => if v.isSender then ['x'] else [], ?_, flatMap_eq_nil_iff.mpr ?_⟩
    · intro v hv
      simp [hv]
    · intro v hv
      rw [if_neg fun hsender => hU ⟨v, hv, hsender⟩]
  have hsame : ∃ f₁ f₂, Showable f₁ ∧ Showable f₂ ∧ text f₁ V = text f₂ W := by
    by_cases hnil : V = []
    · obtain ⟨f, hf, htext⟩ := hempty fun hsender => h ⟨hnil, hsender⟩
      exact ⟨f, f, hf, hf, by rw [hnil, htext]; rfl⟩
    · by_cases hnil' : W = []
      · obtain ⟨f, hf, htext⟩ := hempty fun hsender => h' ⟨hnil', hsender⟩
        exact ⟨f, f, hf, hf, by rw [hnil', htext]; rfl⟩
      · have hlong : ∀ {U : List ThrottleVariable}, U.length ≤ V.length + W.length →
            (U.filter isSender).length ≤ (List.replicate (V.length + W.length) 'x').length := by
          intro U hU
          rw [length_replicate]
          exact (length_filter_le _ U).trans hU
        obtain ⟨f₁, hf₁, htext₁⟩ := exists_text hV hnil _ (hlong (Nat.le_add_right _ _))
        obtain ⟨f₂, hf₂, htext₂⟩ := exists_text hW hnil' _ (hlong (Nat.le_add_left _ _))
        exact ⟨f₁, f₂, hf₁, hf₂, htext₁.trans htext₂.symm⟩
  obtain ⟨f₁, f₂, hf₁, hf₂, htext⟩ := hsame
  obtain ⟨e₁, e₂, hshared, -⟩ := exists_shared named hf₁ hf₂ htext
  exact ⟨e₁, e₂, hshared⟩

/-- Each text has one meaning: there is one variable at most, and not one of which two texts are shown as one. -/
def Legible (named : Bool) (V : List ThrottleVariable) : Prop :=
  V.length ≤ 1 ∧ (named = true ∨ ∀ v ∈ V, v.isSender = false)

theorem legible_iff (named : Bool) (hV : V.Nodup) :
    Legible named V ↔ ∀ e₁ e₂, Shared named V V e₁ e₂ → ∀ v ∈ V, e₁ v = e₂ v := by
  match V with
  | [] => exact iff_of_true ⟨Nat.zero_le 1, Or.inr (forall_mem_nil _)⟩ fun _ _ _ => forall_mem_nil _
  | [v] =>
    constructor
    · rintro ⟨-, hplain⟩ e₁ e₂ ⟨hnamed, htext⟩ w hw
      obtain rfl := mem_singleton.mp hw
      refine eq_of_shownText ?_ (append_cancel_right htext)
      intro hsender
      rcases hplain with h | h
      · exact ⟨(hnamed h).1 w hsender, (hnamed h).2 w hsender⟩
      · rw [h w hw] at hsender
        cases hsender
    · intro h
      refine ⟨Nat.le_refl 1, ?_⟩
      by_contra hplain
      push Not at hplain
      obtain ⟨hnamed, w, hw, hsender⟩ := hplain
      obtain rfl := mem_singleton.mp hw
      have heq := h (fun _ => "") (fun _ => "<>") ⟨fun h => absurd h hnamed, ?_⟩ w hw
      · exact absurd heq (by decide)
      · have hshown : shownText (fun _ => "") w = shownText (fun _ => "<>") w := by simp [shownText, shown, hsender]
        rw [text_cons, hshown]
        rfl
  | v :: w :: V =>
    refine iff_of_false (fun h => ?_) fun h => ?_
    · have hlen := h.1
      simp at hlen
    · obtain ⟨hv, hrest⟩ := nodup_cons.mp hV
      obtain ⟨hw, -⟩ := nodup_cons.mp hrest
      have hvw : w ≠ v := fun h => hv (h ▸ mem_cons_self)
      -- The first letter of the one variable may be the last one of the other.
      let f (x y : List Char) : ThrottleVariable → List Char :=
        update (update (fun _ => ['x']) w y) v x
      have hf : ∀ {x y : List Char}, x ≠ [] → y ≠ [] → Showable (f x y) := by
        intro x y hx hy
        exact ((showable_const 'x').update fun _ => hy).update fun _ => hx
      have htext : ∀ x y : List Char, text (f x y) (v :: w :: V) = x ++ (y ++ text (fun _ => ['x']) V) := by
        intro x y
        have hvV : v ∉ V := fun h => hv (mem_cons_of_mem w h)
        rw [text_cons, text_cons, text_update hvV, text_update hw]
        simp [f, hvw]
      obtain ⟨e₁, e₂, hshared, he₁, he₂⟩ := @exists_shared (v :: w :: V) (v :: w :: V) named (f ['a', 'b'] ['c'])
        (f ['a'] ['b', 'c']) (hf (by decide) (by decide)) (hf (by decide) (by decide)) (by rw [htext, htext]; rfl)
      have heq := h e₁ e₂ hshared v mem_cons_self
      have hshown : shownText e₁ v = shownText e₂ v := by
        unfold shownText shown
        rw [heq]
      rw [he₁, he₂] at hshown
      simp [f] at hshown

end

/-! ## Counters of their own -/

section

variable {l₁ l₂ : QueueRateLimiter} {c₁ c₂ : ThrottleContext} {q₁ q₂ : QueueQuota} {named : Bool}

/-- The same variables are selected, and the envelopes agree on them. -/
def Alike (keys₁ keys₂ : UInt16) (vars : List ThrottleVariable) (e₁ e₂ : Envelope) : Prop :=
  (∀ v ∈ vars, isSelected keys₁ v = isSelected keys₂ v) ∧ ∀ v ∈ vars, isSelected keys₁ v = true → e₁ v = e₂ v

/-- Two limiters share a counter only where they have one rate and select the same variables, on which the envelopes
agree. -/
def RatesApart (named : Bool) (l₁ l₂ : QueueRateLimiter) (c₁ c₂ : ThrottleContext) : Prop :=
  ∀ e₁ e₂, (named = true → Named e₁ ∧ Named e₂) → l₁.newKey e₁ c₁ = l₂.newKey e₂ c₂ →
    l₁.rate = l₂.rate ∧ Alike l₁.keys l₂.keys all e₁ e₂

/-- Two quotas share a counter only where they have the same limits and select the same variables, on which the
envelopes agree. -/
def QuotasApart (named : Bool) (q₁ q₂ : QueueQuota) : Prop :=
  ∀ e₁ e₂, (named = true → Named e₁ ∧ Named e₂) → q₁.newKey e₁ = q₂.newKey e₂ →
    (q₁.messages = q₂.messages ∧ q₁.size = q₂.size) ∧ Alike q₁.keys q₂.keys forQuotas e₁ e₂

theorem nodup_all : all.Nodup := by decide

theorem nodup_forQuotas : forQuotas.Nodup := by decide

variable {vars : List ThrottleVariable}

theorem alike_iff {keys₁ keys₂ : UInt16} {e₁ e₂ : Envelope} :
    Alike keys₁ keys₂ vars e₁ e₂ ↔
      selected keys₁ vars = selected keys₂ vars ∧ ∀ v ∈ selected keys₁ vars, e₁ v = e₂ v := by
  have hagree : (∀ v ∈ vars, isSelected keys₁ v = true → e₁ v = e₂ v) ↔ ∀ v ∈ selected keys₁ vars, e₁ v = e₂ v := by
    simp [selected]
  refine and_congr ?_ hagree
  constructor
  · intro h
    exact filter_congr h
  · intro h v hv
    have hmem : v ∈ selected keys₁ vars ↔ v ∈ selected keys₂ vars := iff_of_eq (congrArg (v ∈ ·) h)
    simpa [selected, hv] using hmem

theorem apart_iff {named : Bool} {keys₁ keys₂ : UInt16} (hvars : vars.Nodup) (limits : Prop) :
    (∀ e₁ e₂, Shared named (selected keys₁ vars) (selected keys₂ vars) e₁ e₂ → limits ∧ Alike keys₁ keys₂ vars e₁ e₂) ↔
      Unlike (selected keys₁ vars) (selected keys₂ vars) ∨ Unlike (selected keys₂ vars) (selected keys₁ vars) ∨
        limits ∧ selected keys₁ vars = selected keys₂ vars ∧ Legible named (selected keys₁ vars) := by
  have hV : (selected keys₁ vars).Nodup := hvars.filter _
  have hW : (selected keys₂ vars).Nodup := hvars.filter _
  constructor
  · intro h
    by_cases h₁ : Unlike (selected keys₁ vars) (selected keys₂ vars)
    · exact Or.inl h₁
    by_cases h₂ : Unlike (selected keys₂ vars) (selected keys₁ vars)
    · exact Or.inr (Or.inl h₂)
    obtain ⟨e₁, e₂, hshared⟩ := exists_shared_of_not_unlike named hV hW h₁ h₂
    obtain ⟨hlimits, halike⟩ := h e₁ e₂ hshared
    have hsame := (alike_iff.1 halike).1
    refine Or.inr (Or.inr ⟨hlimits, hsame, (legible_iff named hV).mpr ?_⟩)
    intro e₁ e₂ hshared
    exact fun v hv => (alike_iff.1 (h e₁ e₂ (hsame ▸ hshared)).2).2 v hv
  · rintro (h | h | ⟨hlimits, hsame, hlegible⟩) e₁ e₂ ⟨hnamed, htext⟩
    · exact absurd htext.symm (text_ne_of_unlike (showable_shownText e₂) h)
    · exact absurd htext (text_ne_of_unlike (showable_shownText e₁) h)
    · refine ⟨hlimits, alike_iff.2 ⟨hsame, ?_⟩⟩
      rw [← hsame] at htext
      exact (legible_iff named hV).mp hlegible e₁ e₂ ⟨hnamed, htext⟩

/-! ### Rate limiters -/

theorem rate_newKey (l : QueueRateLimiter) (e : Envelope) (c : ThrottleContext) : l.newKey e c =
    ⟨⟨utf8Bytes (text (shownText e) (selected l.keys all)) ++ u64BeBytes l.rate.period.secs ++
      u64BeBytes l.rate.count ++ utf8Bytes c.text.toList⟩⟩ := by
  unfold QueueRateLimiter.newKey
  rw [hashVariables_eq]
  rfl

theorem u64BeBytes_inj {m n : UInt64} (h : u64BeBytes m = u64BeBytes n) : m = n :=
  UInt64.toNat_inj.mp (beBytes_inj m.toNat_lt n.toNat_lt h)

theorem u64BeBytes_length (n : UInt64) : (u64BeBytes n).length = 8 := beBytes_length 8 n.toNat

theorem context_inj {l m : List UInt8}
    (h : l ++ utf8Bytes c₁.text.toList = m ++ utf8Bytes c₂.text.toList) : c₁ = c₂ ∧ l = m := by
  have hne : ∀ {l m : List UInt8}, l ++ utf8Bytes ThrottleContext.inbound.text.toList ≠
      m ++ utf8Bytes ThrottleContext.outbound.text.toList := by
    intro l m h
    have hin : utf8Bytes ThrottleContext.inbound.text.toList = [105] ++ [110, 98, 111, 117, 110, 100] := by decide
    have hout : utf8Bytes ThrottleContext.outbound.text.toList = [111, 117, 116] ++ [98, 111, 117, 110, 100] := by
      decide
    rw [hin, hout] at h
    have hlast := (append_inj' (show (l ++ [105, 110]) ++ [98, 111, 117, 110, 100] =
      (m ++ [111, 117, 116]) ++ [98, 111, 117, 110, 100] by simpa using h) rfl).1
    have hletter :=
      (append_inj' (show (l ++ [105]) ++ [110] = (m ++ [111, 117]) ++ [116] by simpa using hlast) rfl).2
    exact absurd hletter (by decide)
  cases c₁ with
  | inbound =>
    cases c₂ with
    | inbound => exact ⟨rfl, append_cancel_right h⟩
    | outbound => exact absurd h hne
  | outbound =>
    cases c₂ with
    | inbound => exact absurd h.symm hne
    | outbound => exact ⟨rfl, append_cancel_right h⟩

theorem rate_newKey_eq_iff {e₁ e₂ : Envelope} : l₁.newKey e₁ c₁ = l₂.newKey e₂ c₂ ↔
    (c₁ = c₂ ∧ l₁.rate.count = l₂.rate.count ∧ l₁.rate.period.secs = l₂.rate.period.secs) ∧
      text (shownText e₁) (selected l₁.keys all) =
        text (shownText e₂) (selected l₂.keys all) := by
  rw [rate_newKey, rate_newKey, ThrottleKey.mk.injEq, Hasher.mk.injEq]
  constructor
  · intro h
    obtain ⟨hcontext, h⟩ := context_inj h
    obtain ⟨h, hcount⟩ := append_inj' h (by rw [u64BeBytes_length, u64BeBytes_length])
    obtain ⟨h, hsecs⟩ := append_inj' h (by rw [u64BeBytes_length, u64BeBytes_length])
    exact ⟨⟨hcontext, u64BeBytes_inj hcount, u64BeBytes_inj hsecs⟩, utf8Bytes_inj.mp h⟩
  · rintro ⟨⟨hcontext, hcount, hsecs⟩, htext⟩
    rw [hcontext, hcount, hsecs, htext]

/-- Two limiters that are used in one place and have one count in as many seconds; they have one period, and the one
variable they select; or one selects nothing and the other a sender. -/
def RatesDistinct (named : Bool) (l₁ l₂ : QueueRateLimiter) (c₁ c₂ : ThrottleContext) : Prop :=
  let V := selected l₁.keys all
  let W := selected l₂.keys all
  c₁ = c₂ ∧ l₁.rate.count = l₂.rate.count ∧ l₁.rate.period.secs = l₂.rate.period.secs →
    Unlike V W ∨ Unlike W V ∨ l₁.rate.period.nanos = l₂.rate.period.nanos ∧ V = W ∧ Legible named V

theorem ratesApart_iff : RatesApart named l₁ l₂ c₁ c₂ ↔ RatesDistinct named l₁ l₂ c₁ c₂ := by
  unfold RatesApart RatesDistinct
  by_cases hsame : c₁ = c₂ ∧ l₁.rate.count = l₂.rate.count ∧ l₁.rate.period.secs = l₂.rate.period.secs
  · have hrate : l₁.rate = l₂.rate ↔ l₁.rate.period.nanos = l₂.rate.period.nanos := by
      obtain ⟨-, hcount, hsecs⟩ := hsame
      constructor
      · intro h
        rw [h]
      · intro h
        exact Rate.ext hcount (Duration.ext hsecs h)
    rw [forall_prop_of_true hsame, ← hrate, ← apart_iff nodup_all]
    refine forall_congr' fun e₁ => forall_congr' fun e₂ => ?_
    rw [rate_newKey_eq_iff, and_iff_right hsame]
    exact and_imp.symm
  · refine iff_of_true ?_ fun h => absurd h hsame
    intro e₁ e₂ _ hkey
    exact absurd (rate_newKey_eq_iff.1 hkey).1 hsame

/-! ### Quotas -/

/-- The bytes of the limits of a quota. -/
def limitBytes (q : QueueQuota) : List UInt8 :=
  (match q.messages with | some messages => u64NeBytes messages | none => []) ++
    match q.size with | some size => u64NeBytes size | none => []

theorem quota_newKey (q : QueueQuota) (e : Envelope) : q.newKey e =
    ⟨⟨utf8Bytes (text (shownText e) (selected q.keys forQuotas)) ++ limitBytes q⟩⟩ := by
  unfold QueueQuota.newKey limitBytes
  rw [hashVariables_eq]
  cases q.messages with
  | none =>
    cases q.size with
    | none => simp
    | some size => rfl
  | some messages =>
    cases q.size with
    | none => simp [Hasher.update]
    | some size => simp [Hasher.update]

theorem u64NeBytes_length (n : UInt64) : (u64NeBytes n).length = 8 := by
  rw [u64NeBytes, length_reverse, u64BeBytes_length]

/-- The limits of one quota begin with a text, behind which are those of the other. -/
def Continues (q₁ q₂ : QueueQuota) (u : List Char) : Prop := u ≠ [] ∧ limitBytes q₁ = utf8Bytes u ++ limitBytes q₂

theorem two_le_of_continues {u : List Char} (h : Continues q₁ q₂ u) : 2 ≤ u.length := by
  obtain ⟨hne, hbytes⟩ := h
  have hlen : ∀ q : QueueQuota, (limitBytes q).length = 0 ∨ (limitBytes q).length = 8 ∨ (limitBytes q).length = 16 := by
    intro q
    unfold limitBytes
    cases q.messages <;> cases q.size <;> simp [u64NeBytes_length]
  have hsum := congrArg List.length hbytes
  rw [length_append] at hsum
  have hpos : 0 < (utf8Bytes u).length := length_pos_iff.mpr fun hnil => hne (utf8Bytes_eq_nil_iff.mp hnil)
  have hle := length_utf8Bytes_le u
  have h₁ := hlen q₁
  have h₂ := hlen q₂
  omega

theorem quota_newKey_eq_iff {e₁ e₂ : Envelope} : q₁.newKey e₁ = q₂.newKey e₂ ↔
    (limitBytes q₁ = limitBytes q₂ ∧ text (shownText e₁) (selected q₁.keys forQuotas) =
        text (shownText e₂) (selected q₂.keys forQuotas)) ∨
      (∃ u, Continues q₁ q₂ u ∧ text (shownText e₂) (selected q₂.keys forQuotas) =
        text (shownText e₁) (selected q₁.keys forQuotas) ++ u) ∨
      ∃ u, Continues q₂ q₁ u ∧ text (shownText e₁) (selected q₁.keys forQuotas) =
        text (shownText e₂) (selected q₂.keys forQuotas) ++ u := by
  rw [quota_newKey, quota_newKey, ThrottleKey.mk.injEq, Hasher.mk.injEq]
  have hlonger : ∀ {s₁ s₂ : List Char} {t₁ t₂ : List UInt8}, utf8Bytes s₁ ++ t₁ = utf8Bytes s₂ ++ t₂ →
      t₂.length ≤ t₁.length → ∃ u, s₂ = s₁ ++ u ∧ t₁ = utf8Bytes u ++ t₂ := by
    intro s₁ s₂ t₁ t₂ h hlen
    have hsuffix : t₂ <:+ t₁ :=
      suffix_of_suffix_length_le (h ▸ suffix_append _ t₂) (suffix_append _ t₁) hlen
    obtain ⟨p, rfl⟩ := hsuffix
    rw [← append_assoc] at h
    obtain ⟨u, hu, rfl⟩ := exists_of_utf8Bytes_append (append_cancel_right h)
    exact ⟨u, hu, rfl⟩
  constructor
  · intro h
    rcases le_total (limitBytes q₂).length (limitBytes q₁).length with hlen | hlen
    · obtain ⟨u, hs, ht⟩ := hlonger h hlen
      by_cases hu : u = []
      · rw [hu, append_nil] at hs
        rw [hu] at ht
        exact Or.inl ⟨ht, hs.symm⟩
      · exact Or.inr (Or.inl ⟨u, ⟨hu, ht⟩, hs⟩)
    · obtain ⟨u, hs, ht⟩ := hlonger h.symm hlen
      by_cases hu : u = []
      · rw [hu, append_nil] at hs
        rw [hu] at ht
        exact Or.inl ⟨ht.symm, hs⟩
      · exact Or.inr (Or.inr ⟨u, ⟨hu, ht⟩, hs⟩)
  · rintro (⟨ht, hs⟩ | ⟨u, ⟨-, ht⟩, hs⟩ | ⟨u, ⟨-, ht⟩, hs⟩)
    · rw [ht, hs]
    · rw [ht, hs, utf8Bytes_append, append_assoc]
    · rw [ht, hs, utf8Bytes_append, append_assoc]

/-- Quotas whose limits have the same bytes have the same limits and the one variable they select, or one selects
nothing and the other a sender; and none selects anything where the limits of the other go on behind a text. -/
def QuotasDistinct (named : Bool) (q₁ q₂ : QueueQuota) : Prop :=
  let V := selected q₁.keys forQuotas
  let W := selected q₂.keys forQuotas
  (limitBytes q₁ = limitBytes q₂ → Unlike V W ∨ Unlike W V ∨
    (q₁.messages = q₂.messages ∧ q₁.size = q₂.size) ∧ V = W ∧ Legible named V) ∧
  (∀ u, Continues q₁ q₂ u → W = []) ∧ ∀ u, Continues q₂ q₁ u → V = []

theorem exists_continued {V W : List ThrottleVariable} (hW : W.Nodup) (hne : W ≠ []) {u : List Char}
    (hu : (W.filter isSender).length ≤ u.length) :
    ∃ e₁ e₂, Named e₁ ∧ Named e₂ ∧ text (shownText e₂) W = text (shownText e₁) V ++ u := by
  obtain ⟨f₁, hf₁⟩ : ∃ f, Showable f := ⟨_, showable_const 'x'⟩
  obtain ⟨f₂, hf₂, htext⟩ := exists_text hW hne (text f₁ V ++ u) (by rw [length_append]; omega)
  obtain ⟨e₁, hnamed₁, he₁⟩ := exists_envelope hf₁
  obtain ⟨e₂, hnamed₂, he₂⟩ := exists_envelope hf₂
  refine ⟨e₁, e₂, hnamed₁, hnamed₂, ?_⟩
  rw [show shownText e₁ = f₁ from funext he₁, show shownText e₂ = f₂ from funext he₂]
  exact htext

theorem length_senders_le (keys : UInt16) :
    ((selected keys forQuotas).filter isSender).length ≤ 2 := by
  have hsub : (selected keys forQuotas).Sublist forQuotas := filter_sublist
  exact (hsub.filter _).length_le

theorem quotasApart_iff : QuotasApart named q₁ q₂ ↔ QuotasDistinct named q₁ q₂ := by
  have hV : (selected q₁.keys forQuotas).Nodup := nodup_forQuotas.filter _
  have hW : (selected q₂.keys forQuotas).Nodup := nodup_forQuotas.filter _
  -- Limits that go on behind a text are not the same.
  have hdiffer : ∀ {q₁ q₂ : QueueQuota} {u : List Char}, Continues q₁ q₂ u →
      ¬ (q₁.messages = q₂.messages ∧ q₁.size = q₂.size) := by
    rintro q₁ q₂ u hu ⟨hmessages, hsize⟩
    have hsame : limitBytes q₁ = limitBytes q₂ := by
      unfold limitBytes
      rw [hmessages, hsize]
    have hlen := congrArg List.length (hsame.symm.trans hu.2)
    rw [length_append] at hlen
    exact hu.1 (utf8Bytes_eq_nil_iff.mp (eq_nil_of_length_eq_zero (by omega)))
  constructor
  · intro h
    refine ⟨?_, ?_, ?_⟩
    · intro hsame
      refine (apart_iff nodup_forQuotas _).mp ?_
      rintro e₁ e₂ ⟨hnamed, htext⟩
      exact h e₁ e₂ hnamed (quota_newKey_eq_iff.2 (Or.inl ⟨hsame, htext⟩))
    · intro u hu
      by_contra hne
      obtain ⟨e₁, e₂, hnamed₁, hnamed₂, htext⟩ := exists_continued hW hne
        ((length_senders_le q₂.keys).trans (two_le_of_continues hu))
      exact hdiffer hu (h e₁ e₂ (fun _ => ⟨hnamed₁, hnamed₂⟩)
        (quota_newKey_eq_iff.2 (Or.inr (Or.inl ⟨u, hu, htext⟩)))).1
    · intro u hu
      by_contra hne
      obtain ⟨e₂, e₁, hnamed₂, hnamed₁, htext⟩ := exists_continued hV hne
        ((length_senders_le q₁.keys).trans (two_le_of_continues hu))
      obtain ⟨hmessages, hsize⟩ := (h e₁ e₂ (fun _ => ⟨hnamed₁, hnamed₂⟩)
        (quota_newKey_eq_iff.2 (Or.inr (Or.inr ⟨u, hu, htext⟩)))).1
      exact hdiffer hu ⟨hmessages.symm, hsize.symm⟩
  · rintro ⟨hsame, hfirst, hsecond⟩ e₁ e₂ hnamed hkey
    rcases quota_newKey_eq_iff.1 hkey with ⟨hbytes, htext⟩ | ⟨u, hu, htext⟩ | ⟨u, hu, htext⟩
    · exact (apart_iff nodup_forQuotas _).mpr (hsame hbytes) e₁ e₂ ⟨hnamed, htext⟩
    · rw [hfirst u hu] at htext
      exact absurd (append_eq_nil_iff.mp htext.symm).2 hu.1
    · rw [hsecond u hu] at htext
      exact absurd (append_eq_nil_iff.mp htext.symm).2 hu.1

/-- **Limiters keep their counters apart** where nothing, or one variable, is selected of what is hashed, and where
the limits of one are not text for the other. -/
theorem newKey_iff (named : Bool) (l₁ l₂ : QueueRateLimiter) (c₁ c₂ : ThrottleContext) (q₁ q₂ : QueueQuota) :
    (RatesApart named l₁ l₂ c₁ c₂ ↔ RatesDistinct named l₁ l₂ c₁ c₂) ∧
      (QuotasApart named q₁ q₂ ↔ QuotasDistinct named q₁ q₂) :=
  ⟨ratesApart_iff, quotasApart_iff⟩

end

/-- The domains of an envelope. -/
def sampleEnvelope (rcptDomain senderDomain : String) : Envelope
  | .rcptDomain => rcptDomain
  | .senderDomain => senderDomain
  | _ => ""

/-- A letter may change sides, and a variable may be taken for another one: two pairs of domains share a counter, and so
do two limiters that are keyed on different variables. -/
theorem not_newKey_apart :
    (⟨0xa, ⟨10, ⟨60, 0⟩⟩⟩ : QueueRateLimiter).newKey (sampleEnvelope "example.co" "mail.org") .inbound =
        (⟨0xa, ⟨10, ⟨60, 0⟩⟩⟩ : QueueRateLimiter).newKey (sampleEnvelope "example.com" "ail.org") .inbound ∧
      (⟨0x2, some 10, none⟩ : QueueQuota).newKey (sampleEnvelope "example.com" "") =
        (⟨0x8, none, some 10⟩ : QueueQuota).newKey (sampleEnvelope "" "example.com") ∧
      ¬ ∀ (l₁ l₂ : QueueRateLimiter) (c₁ c₂ : ThrottleContext), RatesApart true l₁ l₂ c₁ c₂ := by
  refine ⟨by decide, by decide, fun h => ?_⟩
  have hagree := (h ⟨0xa, ⟨10, ⟨60, 0⟩⟩⟩ ⟨0xa, ⟨10, ⟨60, 0⟩⟩⟩ .inbound .inbound
    (sampleEnvelope "example.co" "mail.org") (sampleEnvelope "example.com" "ail.org") ?_ (by decide)).2.2
  · exact absurd (hagree .rcptDomain (by decide) (by decide)) (by decide)
  · refine fun _ => ⟨?_, ?_⟩ <;> intro v _ <;> cases v <;> decide

end MailServer.Smtp.Throttle
