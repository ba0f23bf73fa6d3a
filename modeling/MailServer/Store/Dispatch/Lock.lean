import MailServer.Lib.Run
import MailServer.Store.Write.Assert

/-!
# Locks (`store/src/dispatch/lookup.rs`)

A lock is a key whose value is the time at which it expires.  A client takes it by an assertion on the
value it has read, and removes it outright.

* `World`: the value, the clock and what every client is about to do.
* `World.step`: one read, write or delete of one client, or an advance of the clock.
* `World.Safe`: one holder at most, and the lock of a holder is in the store.
* `safe_iff`: the runs that keep it.
-/

namespace MailServer.Store.Dispatch

open MailServer.Lib MailServer.Store.Write Option

/-- `u64::deserialize`: eight bytes, most significant first. -/
def deserializeU64 (bytes : List UInt8) : Option UInt64 :=
  if bytes.length = U64_LEN then some (UInt64.ofNat (ofBeBytes bytes)) else none

/-- Where a client is in `try_lock` or `remove_lock`, with what it has read so far. -/
inductive Pc where
  | idle
  /-- `try_lock` is called. -/
  | reading (duration : UInt64)
  /-- The value is corrupt. -/
  | clearing (duration : UInt64)
  /-- `lock_expiry` is known. -/
  | checking (duration : UInt64) (lockExpiry : Option UInt64)
  /-- The lock was free or expired at `now`. -/
  | writing (duration : UInt64) (lockExpiry : Option UInt64) (now : UInt64)
  /-- `remove_lock` is called. -/
  | removing
  deriving DecidableEq

/-- A client, with the expiry of the lock it has acquired and not released. -/
structure Client where
  pc : Pc
  held : Option UInt64
  deriving DecidableEq

structure World (C : Type*) where
  clock : UInt64
  value : Option (List UInt8)
  clients : C → Client

open World

inductive Action (C : Type*) where
  | advance (now : UInt64)
  | tryLock (c : C) (duration : UInt64)
  | removeLock (c : C)
  /-- A client takes its next step. -/
  | next (c : C)

/-- The assertion on the value that was read. -/
def lockAssertion : Option UInt64 → AssertValue
  | some value => .u64 value
  | none => .none

/-- `get_value::<u64>`. -/
def readLock (duration : UInt64) (value : Option (List UInt8)) : Pc :=
  match value with
  | none => .checking duration none
  | some bytes =>
    match deserializeU64 bytes with
    | some lockExpiry => .checking duration (some lockExpiry)
    | none => .clearing duration

namespace World

variable {C : Type*} [DecidableEq C] (xxh3 : List UInt8 → UInt64)

def setClient (w : World C) (c : C) (x : Client) : World C :=
  { w with clients := Function.update w.clients c x }

def setPc (w : World C) (c : C) (pc : Pc) : World C :=
  w.setClient c { w.clients c with pc := pc }

/-- A client reads, writes or deletes. -/
def next (w : World C) (c : C) : Option (World C) :=
  match (w.clients c).pc with
  | .idle => none
  | .reading duration => some (w.setPc c (readLock duration w.value))
  | .clearing duration => some ({ w with value := none }.setPc c (.checking duration none))
  | .checking duration lockExpiry =>
    if lockExpiry.any (fun expiry => expiry > w.clock) then some (w.setPc c .idle)
    else some (w.setPc c (.writing duration lockExpiry w.clock))
  | .writing duration lockExpiry now =>
    if (lockAssertion lockExpiry).holds xxh3 w.value then
      some ({ w with value := some (be64 (now + duration)) }.setClient c ⟨.idle, some (now + duration)⟩)
    else some (w.setPc c .idle)
  | .removing => some ({ w with value := none }.setClient c ⟨.idle, none⟩)

def step (w : World C) : Action C → Option (World C)
  | .advance now => if w.clock ≤ now then some { w with clock := now } else none
  | .tryLock c duration =>
    if (w.clients c).pc = .idle then some (w.setPc c (.reading duration)) else none
  | .removeLock c => if (w.clients c).pc = .idle then some (w.setPc c .removing) else none
  | .next c => w.next xxh3 c

/-- Any value, any clock; no client holds the lock or is about to do anything. -/
def Initial (w : World C) : Prop := ∀ c, w.clients c = ⟨.idle, none⟩

/-- A client holds a lock that it has not released and that is not expired. -/
def Holds (w : World C) (c : C) : Prop := ∃ expiry, (w.clients c).held = some expiry ∧ expiry > w.clock

/-- One holder at most, and nobody else has taken away its lock. -/
structure Safe (w : World C) : Prop where
  exclusive : ∀ c c', w.Holds c → w.Holds c' → c = c'
  kept : ∀ c expiry, (w.clients c).held = some expiry → expiry > w.clock →
    w.value = some (be64 expiry)

/-- The step takes no lock away from another client: nobody else holds the lock where a client removes it,
and nobody at all where a client clears a value that was corrupt when it was read. -/
def Gentle (w : World C) : Action C → Prop
  | .next c =>
    ((w.clients c).pc = .removing → ∀ c', w.Holds c' → c' = c) ∧
      ∀ duration, (w.clients c).pc = .clearing duration → ∀ c', ¬ w.Holds c'
  | _ => True

/-- A safe world in which every client that is about to write has read the clock, and at most an expired
lock. -/
structure Inv (w : World C) : Prop where
  safe : w.Safe
  writing : ∀ c duration lockExpiry now, (w.clients c).pc = .writing duration lockExpiry now →
    now ≤ w.clock ∧ ∀ expiry ∈ lockExpiry, expiry ≤ now

variable {xxh3} {w w' : World C}

/-! ## Nothing but the program counter changes -/

theorem clients_setClient (w : World C) (c c' : C) (x : Client) :
    (w.setClient c x).clients c' = if c' = c then x else w.clients c' := by
  simp [setClient, Function.update_apply]

theorem held_setPc (w : World C) (c c' : C) (pc : Pc) :
    ((w.setPc c pc).clients c').held = (w.clients c').held := by
  rw [setPc, clients_setClient]
  split_ifs with h
  · rw [h]
  · rfl

theorem Safe.setPc (h : w.Safe) (c : C) (pc : Pc) : (w.setPc c pc).Safe := by
  have hholds : ∀ c', (w.setPc c pc).Holds c' → w.Holds c' := by
    rintro c' ⟨e, he, hlt⟩
    exact ⟨e, (held_setPc w c c' pc).symm.trans he, hlt⟩
  refine ⟨fun c₁ c₂ h₁ h₂ => h.exclusive c₁ c₂ (hholds c₁ h₁) (hholds c₂ h₂), fun c' e he hlt => ?_⟩
  exact h.kept c' e ((held_setPc w c c' pc).symm.trans he) hlt

theorem Inv.setPc (h : w.Inv) (c : C) {pc : Pc} (hpc : ∀ d e n, pc ≠ .writing d e n) :
    (w.setPc c pc).Inv := by
  refine ⟨h.safe.setPc c pc, fun c' d e n hw => ?_⟩
  rw [World.setPc, clients_setClient] at hw
  split_ifs at hw
  · exact absurd hw (hpc d e n)
  · exact h.writing c' d e n hw

/-! ## One step -/

omit [DecidableEq C] in
theorem Inv.advance (h : w.Inv) {now : UInt64} (hnow : w.clock ≤ now) :
    ({ w with clock := now } : World C).Inv := by
  have hle : ∀ {e : UInt64}, e > now → e > w.clock := fun he => UInt64.lt_of_le_of_lt hnow he
  refine ⟨⟨?_, ?_⟩, ?_⟩
  · rintro c c' ⟨e, he, hlt⟩ ⟨e', he', hlt'⟩
    exact h.safe.exclusive c c' ⟨e, he, hle hlt⟩ ⟨e', he', hle hlt'⟩
  · exact fun c e he hlt => h.safe.kept c e he (hle hlt)
  · intro c d e n hw
    obtain ⟨hn, he⟩ := h.writing c d e n hw
    exact ⟨UInt64.le_trans hn hnow, he⟩

omit [DecidableEq C] in
theorem Inv.clear (h : w.Inv) (hfree : ∀ c, ¬ w.Holds c) : ({ w with value := none } : World C).Inv := by
  refine ⟨⟨?_, ?_⟩, h.writing⟩
  · exact fun c c' hc _ => absurd hc (hfree c)
  · exact fun c e he hlt => absurd ⟨e, he, hlt⟩ (hfree c)

omit [DecidableEq C] in
theorem Inv.free_of_assertion (h : w.Inv) {c : C} {duration now : UInt64} {lockExpiry : Option UInt64}
    (hpc : (w.clients c).pc = .writing duration lockExpiry now)
    (hassert : (lockAssertion lockExpiry).holds xxh3 w.value) (c' : C) : ¬ w.Holds c' := by
  rintro ⟨expiry, hheld, hlt⟩
  obtain ⟨hnow, hexpired⟩ := h.writing c duration lockExpiry now hpc
  rw [h.safe.kept c' expiry hheld hlt] at hassert
  rcases lockExpiry with _ | value
  · simp [lockAssertion] at hassert
  · obtain rfl : value = expiry := AssertValue.holds_u64_be64.mp hassert
    exact UInt64.lt_irrefl _ (UInt64.lt_of_lt_of_le hlt (UInt64.le_trans (hexpired value rfl) hnow))

theorem Inv.acquire (h : w.Inv) (hfree : ∀ c, ¬ w.Holds c) (c : C) (expiry : UInt64) :
    ({ w with value := some (be64 expiry) }.setClient c ⟨.idle, some expiry⟩ : World C).Inv := by
  have hheld : ∀ c' e, (({ w with value := some (be64 expiry) }.setClient c ⟨.idle, some expiry⟩ :
      World C).clients c').held = some e → e > w.clock → c' = c ∧ e = expiry := by
    intro c' e he hlt
    rw [clients_setClient] at he
    split_ifs at he with hc
    · exact ⟨hc, (some.inj he).symm⟩
    · exact absurd ⟨e, he, hlt⟩ (hfree c')
  refine ⟨⟨?_, ?_⟩, ?_⟩
  · rintro c₁ c₂ ⟨e₁, he₁, hlt₁⟩ ⟨e₂, he₂, hlt₂⟩
    rw [(hheld c₁ e₁ he₁ hlt₁).1, (hheld c₂ e₂ he₂ hlt₂).1]
  · intro c' e he hlt
    rw [(hheld c' e he hlt).2]
    rfl
  · intro c' d e n hw
    rw [clients_setClient] at hw
    split_ifs at hw
    exact h.writing c' d e n hw

theorem Inv.remove (h : w.Inv) {c : C} (hown : ∀ c', w.Holds c' → c' = c) :
    ({ w with value := none }.setClient c ⟨.idle, none⟩ : World C).Inv := by
  have hfree : ∀ c', ¬ ({ w with value := none }.setClient c ⟨.idle, none⟩ : World C).Holds c' := by
    rintro c' ⟨e, he, hlt⟩
    rw [clients_setClient] at he
    split_ifs at he with hc
    exact hc (hown c' ⟨e, he, hlt⟩)
  refine ⟨⟨?_, ?_⟩, ?_⟩
  · exact fun c₁ c₂ h₁ _ => absurd h₁ (hfree c₁)
  · exact fun c' e he hlt => absurd ⟨e, he, hlt⟩ (hfree c')
  · intro c' d e n hw
    rw [clients_setClient] at hw
    split_ifs at hw
    exact h.writing c' d e n hw

theorem readLock_ne_writing (duration : UInt64) (value : Option (List UInt8)) (d : UInt64)
    (e : Option UInt64) (n : UInt64) : readLock duration value ≠ .writing d e n := by
  unfold readLock
  split
  · simp
  · split <;> simp

/-- **A gentle step** keeps the invariant. -/
theorem Inv.step (h : w.Inv) {a : Action C} (hgentle : w.Gentle a) (hstep : w.step xxh3 a = some w') :
    w'.Inv := by
  cases a with
  | advance now =>
    simp only [World.step, ite_none_right_eq_some, some.injEq] at hstep
    obtain ⟨hnow, rfl⟩ := hstep
    exact h.advance hnow
  | tryLock c duration =>
    simp only [World.step, ite_none_right_eq_some, some.injEq] at hstep
    obtain ⟨-, rfl⟩ := hstep
    exact h.setPc c (by simp)
  | removeLock c =>
    simp only [World.step, ite_none_right_eq_some, some.injEq] at hstep
    obtain ⟨-, rfl⟩ := hstep
    exact h.setPc c (by simp)
  | next c =>
    simp only [World.step, World.next] at hstep
    rcases hpc : (w.clients c).pc with _ | d | d | ⟨d, e⟩ | ⟨d, e, n⟩ | _ <;> rw [hpc] at hstep
    · cases hstep
    · obtain rfl := some.inj hstep
      exact h.setPc c (readLock_ne_writing d w.value)
    · obtain rfl := some.inj hstep
      exact (h.clear (hgentle.2 d hpc)).setPc c (by simp)
    · dsimp only at hstep
      split_ifs at hstep with hexp
      · obtain rfl := some.inj hstep
        exact h.setPc c (by simp)
      · obtain rfl := some.inj hstep
        refine ⟨h.safe.setPc c _, fun c' d' e' n' hw => ?_⟩
        rw [World.setPc, clients_setClient] at hw
        split_ifs at hw
        · obtain ⟨rfl, rfl, rfl⟩ := Pc.writing.inj hw
          refine ⟨UInt64.le_refl _, fun expiry he => ?_⟩
          rw [mem_def.mp he] at hexp
          simpa using hexp
        · exact h.writing c' d' e' n' hw
    · dsimp only at hstep
      split_ifs at hstep with hassert
      · obtain rfl := some.inj hstep
        exact h.acquire (h.free_of_assertion hpc hassert) c (n + d)
      · obtain rfl := some.inj hstep
        exact h.setPc c (by simp)
    · obtain rfl := some.inj hstep
      exact h.remove (hgentle.1 hpc)

theorem not_safe_of_not_gentle {a : Action C} (hgentle : ¬ w.Gentle a)
    (hstep : w.step xxh3 a = some w') : ¬ w'.Safe := by
  intro hsafe
  cases a with
  | advance now => exact hgentle trivial
  | tryLock c duration => exact hgentle trivial
  | removeLock c => exact hgentle trivial
  | next c =>
    simp only [step, next] at hstep
    rcases hpc : (w.clients c).pc with _ | d | d | ⟨d, e⟩ | ⟨d, e, n⟩ | _ <;> rw [hpc] at hstep
    case clearing =>
      obtain rfl := some.inj hstep
      refine hgentle ⟨by simp [hpc], fun d' _ c' hc' => ?_⟩
      obtain ⟨e, he, hlt⟩ := hc'
      have hheld := (held_setPc { w with value := none } c c' (.checking d none)).trans he
      cases hsafe.kept c' e hheld hlt
    case removing =>
      obtain rfl := some.inj hstep
      refine hgentle ⟨fun _ c' hc' => ?_, by simp [hpc]⟩
      obtain ⟨e, he, hlt⟩ := hc'
      by_contra hne
      have hheld : (({ w with value := none }.setClient c ⟨.idle, none⟩ : World C).clients c').held =
          some e := by
        rw [clients_setClient, if_neg hne]
        exact he
      cases hsafe.kept c' e hheld hlt
    all_goals exact hgentle ⟨by simp [hpc], by simp [hpc]⟩

omit [DecidableEq C] in
theorem Initial.inv (h : w.Initial) : w.Inv := by
  have hfree : ∀ c, ¬ w.Holds c := by
    rintro c ⟨e, he, -⟩
    rw [h c] at he
    cases he
  refine ⟨⟨fun c _ hc _ => absurd hc (hfree c), fun c e he hlt => absurd ⟨e, he, hlt⟩ (hfree c)⟩, ?_⟩
  intro c d e n hw
  rw [h c] at hw
  cases hw

/-- **Locks.**  In a run of any clients, at any clock and from any value, at most one client holds the lock
and it is there for its holder, throughout, exactly when no client removes or clears the lock that
another one holds. -/
theorem safe_iff (h : w.Initial) (actions : List (Action C)) :
    Run.Always (step xxh3) World.Safe w actions ↔ Run.Each (step xxh3) World.Gentle w actions :=
  Run.always_iff_each (fun _ hs => hs.safe) (fun _ _ _ hs hq hstep => hs.step hq hstep)
    (fun _ _ _ _ hq hstep => not_safe_of_not_gentle hq hstep) h.inv

end World

section

def emptyWorld : World ℕ := ⟨100, none, fun _ => ⟨.idle, none⟩⟩

/-- A client takes a free lock. -/
theorem safe_at : Run.Always (step fun _ => 0) World.Safe emptyWorld
    [.tryLock 0 10, .next 0, .next 0, .next 0] := by
  refine (safe_iff (fun _ => rfl) _).mpr ?_
  have hgentle : ∀ (w : World ℕ) (c : ℕ), (w.clients c).pc ≠ .removing →
      (∀ d, (w.clients c).pc ≠ .clearing d) → w.Gentle (.next c) :=
    fun w c hr hc => ⟨fun h => absurd h hr, fun d h => absurd h (hc d)⟩
  refine (Run.each_cons rfl).mpr ⟨trivial, (Run.each_cons rfl).mpr ⟨hgentle _ _ ?_ ?_,
    (Run.each_cons rfl).mpr ⟨hgentle _ _ ?_ ?_, (Run.each_cons rfl).mpr ⟨hgentle _ _ ?_ ?_, trivial⟩⟩⟩⟩
  all_goals simp [setPc, setClient, readLock, emptyWorld]

/-- Client 0 lets its lock expire, client 1 takes it, client 0 removes it, client 2 takes it too. -/
def lateRelease : List (Action ℕ) :=
  [.tryLock 0 10, .next 0, .next 0, .next 0, .advance 110, .tryLock 1 10, .next 1, .next 1, .next 1,
    .removeLock 0, .next 0, .tryLock 2 10, .next 2, .next 2, .next 2]

theorem two_holders : ¬ ∀ actions : List (Action ℕ), Run.Always (step fun _ => 0)
    (fun w => ∀ c c', w.Holds c → w.Holds c' → c = c') emptyWorld actions := by
  intro h
  have hlast := (h lateRelease).last rfl 1 2 ⟨120, rfl, by decide⟩ ⟨120, rfl, by decide⟩
  exact absurd hlast (by decide)

end

end MailServer.Store.Dispatch
