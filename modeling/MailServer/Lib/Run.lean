import Mathlib.Tactic.Common

/-!
# Runs of a partial step function

A run takes a list of actions, one after the other, up to the first that is not enabled.

* `Always`: a property of every state of a run.
* `Each`: a property of every step that a run takes, and of the state before it.
* `always_of_each`, `always_iff_each`: from one step to a whole run.
-/

namespace MailServer.Lib.Run

variable {S A : Type*} (step : S → A → Option S)

/-- The property holds in the first state and after every step. -/
def Always (P : S → Prop) : S → List A → Prop
  | s, [] => P s
  | s, a :: as => P s ∧ ∀ s', step s a = some s' → Always P s' as

/-- The property holds of every step taken. -/
def Each (Q : S → A → Prop) : S → List A → Prop
  | _, [] => True
  | s, a :: as => ∀ s', step s a = some s' → Q s a ∧ Each Q s' as

/-- The state at the end, when every action is enabled. -/
def run : S → List A → Option S
  | s, [] => some s
  | s, a :: as => (step s a).bind fun s' => run s' as

theorem run_append (as bs : List A) (s : S) :
    run step s (as ++ bs) = (run step s as).bind fun s' => run step s' bs := by
  induction as generalizing s with
  | nil => rfl
  | cons a as ih => cases h : step s a with
    | none => simp [run, h]
    | some s' => simpa [run, h] using ih s'

variable {step} {P : S → Prop} {Q : S → A → Prop}

theorem Always.first {s : S} : ∀ {as : List A}, Always step P s as → P s
  | [], h => h
  | _ :: _, h => h.1

theorem Always.last : ∀ {as : List A} {s s' : S}, Always step P s as → run step s as = some s' → P s'
  | [], s, s', h, hr => by
    obtain rfl := Option.some.inj hr
    exact h
  | a :: as, s, s', h, hr => by
    obtain ⟨t, ht, hrest⟩ := Option.bind_eq_some_iff.mp hr
    exact (h.2 t ht).last hrest

theorem each_cons {s s' : S} {a : A} {as : List A} (h : step s a = some s') :
    Each step Q s (a :: as) ↔ Q s a ∧ Each step Q s' as :=
  ⟨fun hs => hs s' h, fun hs _ ht => Option.some.inj (h.symm.trans ht) ▸ hs⟩

theorem Each.mono {R : S → A → Prop} (h : ∀ s a, Q s a → R s a) :
    ∀ {as : List A} {s : S}, Each step Q s as → Each step R s as
  | [], _, _ => trivial
  | _ :: _, _, hs => fun s' hs' => ⟨h _ _ (hs s' hs').1, (hs s' hs').2.mono h⟩

theorem Each.of_append {bs : List A} : ∀ {as : List A} {s s' : S}, Each step Q s (as ++ bs) → run step s as = some s' →
    Each step Q s as ∧ Each step Q s' bs
  | [], s, s', h, hr => by
    obtain rfl := Option.some.inj hr
    exact ⟨trivial, h⟩
  | a :: as, s, s', h, hr => by
    obtain ⟨t, ht, hrest⟩ := Option.bind_eq_some_iff.mp hr
    obtain ⟨ha, has⟩ := h t ht
    obtain ⟨hleft, hright⟩ := has.of_append hrest
    exact ⟨(each_cons ht).mpr ⟨ha, hleft⟩, hright⟩

/-- An invariant that steps of one kind preserve holds throughout the runs of such steps. -/
theorem always_of_each (hstep : ∀ s a s', P s → Q s a → step s a = some s' → P s') :
    ∀ {as : List A} {s : S}, P s → Each step Q s as → Always step P s as
  | [], _, hs, _ => hs
  | _ :: _, _, hs, h =>
    ⟨hs, fun s' hs' => always_of_each hstep (hstep _ _ s' hs (h s' hs').1 hs') (h s' hs').2⟩

/-- What steps of one kind do in the states of an invariant that they preserve. -/
theorem each_of_each {R : S → A → Prop} (hstep : ∀ s a s', P s → Q s a → step s a = some s' → P s' ∧ R s a) :
    ∀ {as : List A} {s : S}, P s → Each step Q s as → Each step R s as
  | [], _, _, _ => trivial
  | _ :: _, _, hs, h => fun s' hs' =>
    have hnext := hstep _ _ s' hs (h s' hs').1 hs'
    ⟨hnext.2, each_of_each hstep hnext.1 (h s' hs').2⟩

/-- An invariant that every step preserves holds throughout every run. -/
theorem always_of_step (hstep : ∀ s a s', P s → step s a = some s' → P s') :
    ∀ {as : List A} {s : S}, P s → Always step P s as
  | [], _, hs => hs
  | _ :: _, _, hs => ⟨hs, fun s' hs' => always_of_step hstep (hstep _ _ s' hs hs')⟩

theorem Always.mono {P' : S → Prop} (h : ∀ s, P s → P' s) :
    ∀ {as : List A} {s : S}, Always step P s as → Always step P' s as
  | [], s, hs => h s hs
  | _ :: _, s, hs => ⟨h s hs.1, fun s' hs' => (hs.2 s' hs').mono h⟩

/-- Where every step of the kind preserves the invariant and every other step breaks the property, the
property holds throughout exactly when every step is of the kind. -/
theorem always_iff_each {I : S → Prop} (hP : ∀ s, I s → P s)
    (hgood : ∀ s a s', I s → Q s a → step s a = some s' → I s')
    (hbad : ∀ s a s', I s → ¬ Q s a → step s a = some s' → ¬ P s') :
    ∀ {as : List A} {s : S}, I s → (Always step P s as ↔ Each step Q s as)
  | [], s, hs => iff_of_true (hP s hs) trivial
  | a :: as, s, hs => by
    constructor
    · rintro ⟨-, h⟩ s' hs'
      have hQ : Q s a := by
        by_contra hn
        exact hbad s a s' hs hn hs' (h s' hs').first
      exact ⟨hQ, (always_iff_each hP hgood hbad (hgood s a s' hs hQ hs')).mp (h s' hs')⟩
    · intro h
      refine ⟨hP s hs, fun s' hs' => ?_⟩
      obtain ⟨hQ, hrest⟩ := h s' hs'
      exact (always_iff_each hP hgood hbad (hgood s a s' hs hQ hs')).mpr hrest

end MailServer.Lib.Run
