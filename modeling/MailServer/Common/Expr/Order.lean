import MailServer.Common.Expr.Variable
import Mathlib.Data.Set.Image
import Mathlib.Data.String.Basic

/-!
# The order of the values of expressions (`common/src/expr/eval.rs`)

* `Variable.cmp`: `Ord::cmp`.
* `Variable.Consistent`: on some values, equality and order never contradict each other.
* `Variable.Agreed`: the texts and integers for which they do not.
* `Variable.consistent_iff`: the values, without arrays and with them.
-/

namespace MailServer.Common.Expr

open List Option

/-- A value that is neither an array nor a float. -/
inductive Leaf (L : Language) where
  | string (s : String)
  | integer (n : ℤ)
  | constant (c : L.Stat)

namespace Variable

variable {L : Language} (P : Prims L)

/-- `Ord::cmp` -/
def cmp (a b : Variable L) : Ordering := (a.partialCmp P b).getD .gt

/-- `==` holds where the order says so, the order is reversed with its arguments, and `Ord::cmp` is transitive. -/
structure Consistent (S : Set (Variable L)) : Prop where
  eq_iff : ∀ a ∈ S, ∀ b ∈ S, a.eq P b = true ↔ a.partialCmp P b = some .eq
  swap : ∀ a ∈ S, ∀ b ∈ S, b.partialCmp P a = (a.partialCmp P b).map Ordering.swap
  trans : ∀ a ∈ S, ∀ b ∈ S, ∀ c ∈ S, ∀ o, a.cmp P b = o → b.cmp P c = o → a.cmp P c = o

def ofLeaf : Leaf L → Variable L
  | .string s => .string s
  | .integer n => .integer n
  | .constant c => .constant c

/-- The values built from some leaves: arrays of any nesting. -/
inductive Built (U : Set (Leaf L)) : Variable L → Prop
  | leaf {l : Leaf L} (h : l ∈ U) : Built U (ofLeaf l)
  | array {items : List (Variable L)} (h : ∀ v ∈ items, Built U v) : Built U (.array items)

/-- The number of a text, compared with an integer. -/
def against (s : String) (n : ℤ) : Option Ordering := numCmp P (parseNumber P (.string s)) (.integer n)

/-- No named constant; the number of a text can be compared with every integer; what is above one integer or below
another, and the order of the texts, leave no two ways to go. -/
structure Agreed (U : Set (Leaf L)) : Prop where
  constant : ∀ c, .constant c ∉ U
  number : ∀ s n, .string s ∈ U → .integer n ∈ U → against P s n ≠ none
  strings : ∀ s t n, .string s ∈ U → .string t ∈ U → .integer n ∈ U → s < t →
    against P s n = some .lt ∨ against P t n = some .gt
  integers : ∀ s m n, .string s ∈ U → .integer m ∈ U → .integer n ∈ U → m < n →
    against P s m = some .gt ∨ against P s n = some .lt

/-! ## Three values in a row -/

/-- From `a` to `b` to `c` the order goes on. -/
def Row (a b c : Variable L) : Prop :=
  ∀ o o' : Ordering, o ≠ .gt → o' ≠ .gt → a.partialCmp P b = some o → b.partialCmp P c = some o' →
    a.partialCmp P c = some (o.then o')

variable {P}

theorem trans_of_row {S : Set (Variable L)} (htotal : ∀ a ∈ S, ∀ b ∈ S, a.partialCmp P b ≠ none)
    (hswap : ∀ a ∈ S, ∀ b ∈ S, b.partialCmp P a = (a.partialCmp P b).map Ordering.swap)
    (hrow : ∀ a ∈ S, ∀ b ∈ S, ∀ c ∈ S, Row P a b c) :
    ∀ a ∈ S, ∀ b ∈ S, ∀ c ∈ S, ∀ o, a.cmp P b = o → b.cmp P c = o → a.cmp P c = o := by
  have hcmp : ∀ a ∈ S, ∀ b ∈ S, ∀ o, a.cmp P b = o → a.partialCmp P b = some o := by
    intro a ha b hb o h
    obtain ⟨o', ho'⟩ := ne_none_iff_exists'.mp (htotal a ha b hb)
    unfold cmp at h
    rw [ho'] at h ⊢
    exact congrArg some h
  intro a ha b hb c hc o hab hbc
  have hab := hcmp a ha b hb o hab
  have hbc := hcmp b hb c hc o hbc
  have hac : a.partialCmp P c = some o := by
    cases o with
    | lt => exact hrow a ha b hb c hc .lt .lt (by decide) (by decide) hab hbc
    | eq => exact hrow a ha b hb c hc .eq .eq (by decide) (by decide) hab hbc
    | gt =>
      -- Read from `c` to `a` it is a row.
      have hba : b.partialCmp P a = some .lt := by
        rw [hswap a ha b hb, hab]
        rfl
      have hcb : c.partialCmp P b = some .lt := by
        rw [hswap b hb c hc, hbc]
        rfl
      rw [hswap c hc a ha, hrow c hc b hb a ha .lt .lt (by decide) (by decide) hcb hba]
      rfl
  unfold cmp
  rw [hac]
  rfl

theorem compare_row {α : Type*} [LinearOrder α] {a b c : α} {o o' : Ordering} (ho : o ≠ .gt) (ho' : o' ≠ .gt)
    (hab : compare a b = o) (hbc : compare b c = o') : compare a c = o.then o' := by
  cases o with
  | gt => exact absurd rfl ho
  | eq =>
    obtain rfl := compare_eq_iff_eq.mp hab
    exact hbc
  | lt =>
    have hlt := compare_lt_iff_lt.mp hab
    have hle : b ≤ c := compare_le_iff_le.mp (by rw [hbc]; exact ho')
    exact compare_lt_iff_lt.mpr (hlt.trans_le hle)

/-! A value of another sort among two of a linear order, where `x` and `y` are what it is compared as with these. -/

section

variable {α : Type*} [LinearOrder α] {a b : α} {x y : Option Ordering} {o o' : Ordering}

theorem then_lt (ho : o ≠ .gt) : o.then .lt = .lt := by
  cases o with
  | gt => exact absurd rfl ho
  | lt | eq => rfl

theorem row_left (hab : a < b → x = some .lt ∨ y = some .gt) (heq : a = b → x = y) (ho : o ≠ .gt) (ho' : o' ≠ .gt)
    (h : compare a b = o) (h' : y = some o') : x = some (o.then o') := by
  cases o with
  | gt => exact absurd rfl ho
  | eq => exact (heq (compare_eq_iff_eq.mp h)).trans h'
  | lt =>
    rcases hab (compare_lt_iff_lt.mp h) with hx | hy
    · exact hx
    · exact absurd (some.inj (h'.symm.trans hy)) ho'

theorem row_right (hab : a < b → x = some .lt ∨ y = some .gt) (heq : a = b → x = y) (ho : o ≠ .gt) (ho' : o' ≠ .gt)
    (h : x = some o.swap) (h' : compare a b = o') : y = some (o.then o').swap := by
  cases o' with
  | gt => exact absurd rfl ho'
  | eq =>
    rw [Ordering.then_eq]
    exact (heq (compare_eq_iff_eq.mp h')).symm.trans h
  | lt =>
    rw [then_lt ho]
    rcases hab (compare_lt_iff_lt.mp h') with hx | hy
    · exact absurd (Ordering.swap_inj.mp (some.inj (h.symm.trans hx)) : o = .gt) ho
    · exact hy

theorem row_middle (hab : a < b → x = some .lt ∨ y = some .gt) (hba : b < a → y = some .lt ∨ x = some .gt)
    (heq : a = b → x = y) (ho : o ≠ .gt) (ho' : o' ≠ .gt) (h : x = some o) (h' : y = some o'.swap) :
    compare a b = o.then o' := by
  have hlt : o = .lt ∨ o' = .lt → o.then o' = .lt := by
    rintro (rfl | rfl)
    · rfl
    · exact then_lt ho
  have hy : y = some .lt → o' = .gt := fun hy => Ordering.swap_inj.mp (some.inj (h'.symm.trans hy))
  have hy' : y = some .gt → o' = .lt := fun hy => Ordering.swap_inj.mp (some.inj (h'.symm.trans hy))
  have hx (p : Ordering) (hx : x = some p) : o = p := some.inj (h.symm.trans hx)
  rcases lt_trichotomy a b with hlab | rfl | hlba
  · rw [compare_lt_iff_lt.mpr hlab]
    rcases hab hlab with h | h
    · exact (hlt (.inl (hx _ h))).symm
    · exact (hlt (.inr (hy' h))).symm
  · -- What is neither below nor above one value is the same.
    have hsame : o = o'.swap := some.inj (h.symm.trans ((heq rfl).trans h'))
    rw [compare_eq_iff_eq.mpr rfl, hsame]
    cases o' with
    | lt => exact absurd hsame ho
    | gt => exact absurd rfl ho'
    | eq => rfl
  · rcases hba hlba with h | h
    · exact absurd (hy h) ho'
    · exact absurd (hx _ h) ho

end

/-! ## Texts and integers -/

section

variable (heq : ∀ x y, P.eq x y = true ↔ P.cmp x y = some .eq)
variable (hswap : ∀ x y, P.cmp y x = (P.cmp x y).map Ordering.swap)

theorem parseNumber_cases (s : String) :
    (∃ k, parseNumber P (.string s) = .integer k) ∨ ∃ f, parseNumber P (.string s) = .float f := by
  by_cases hs : s = ""
  · exact .inl ⟨0, if_pos hs⟩
  · rw [show parseNumber P (.string s) = _ from if_neg hs]
    cases P.parseInt s with
    | some k => exact .inl ⟨k, rfl⟩
    | none =>
      cases P.parseFloat s with
      | some f => exact .inr ⟨f, rfl⟩
      | none => exact .inl ⟨0, rfl⟩

include hswap in
theorem partialCmp_integer_string (n : ℤ) (s : String) :
    (integer n : Variable L).partialCmp P (.string s) = (against P s n).map Ordering.swap := by
  show numCmp P (.integer n) (parseNumber P (.string s)) = (numCmp P (parseNumber P (.string s)) (.integer n)).map _
  rcases parseNumber_cases (P := P) s with ⟨k, hk⟩ | ⟨f, hf⟩
  · rw [hk]
    exact congrArg some Std.OrientedOrd.eq_swap
  · rw [hf]
    exact hswap f (P.ofInt n)

theorem map_swap_eq_iff (o : Option Ordering) : o.map Ordering.swap = some .eq ↔ o = some .eq := by
  rcases o with _ | _ | _ | _ <;> decide

include heq hswap in
theorem eq_string_integer (s : String) (n : ℤ) :
    ((string s : Variable L).eq P (.integer n) = true ↔ against P s n = some .eq) ∧
      ((integer n : Variable L).eq P (.string s) = true ↔ against P s n = some .eq) := by
  show (numEq P (parseNumber P (.string s)) (.integer n) = true ↔
      numCmp P (parseNumber P (.string s)) (.integer n) = _) ∧
    (numEq P (.integer n) (parseNumber P (.string s)) = true ↔
      numCmp P (parseNumber P (.string s)) (.integer n) = _)
  rcases parseNumber_cases (P := P) s with ⟨k, hk⟩ | ⟨f, hf⟩
  · rw [hk]
    show (decide (k = n) = true ↔ some (compare k n) = some .eq) ∧ (decide (n = k) = true ↔ some (compare k n) = some .eq)
    rw [decide_eq_true_iff, decide_eq_true_iff, some_inj, compare_eq_iff_eq]
    exact ⟨Iff.rfl, eq_comm⟩
  · rw [hf]
    have h : P.eq (P.ofInt n) f = true ↔ P.cmp f (P.ofInt n) = some .eq := by
      rw [heq, hswap f (P.ofInt n), map_swap_eq_iff]
    exact ⟨h, h⟩

include heq hswap in
theorem leaf_pairs {U : Set (Leaf L)} (h : Agreed P U) : ∀ l ∈ U, ∀ m ∈ U,
    (ofLeaf l).partialCmp P (ofLeaf m) ≠ none ∧
      ((ofLeaf l).eq P (ofLeaf m) = true ↔ (ofLeaf l).partialCmp P (ofLeaf m) = some .eq) ∧
      (ofLeaf m).partialCmp P (ofLeaf l) = ((ofLeaf l).partialCmp P (ofLeaf m)).map Ordering.swap := by
  intro l hl m hm
  cases l with
  | constant c => exact absurd hl (h.constant c)
  | string s =>
    cases m with
    | constant c => exact absurd hm (h.constant c)
    | string t =>
      refine ⟨some_ne_none _, ?_, congrArg some Std.OrientedOrd.eq_swap⟩
      show decide (s = t) = true ↔ some (compare s t) = some .eq
      rw [decide_eq_true_iff, some_inj, compare_eq_iff_eq]
    | integer n =>
      exact ⟨h.number s n hl hm, (eq_string_integer heq hswap s n).1, partialCmp_integer_string hswap n s⟩
  | integer m' =>
    cases m with
    | constant c => exact absurd hm (h.constant c)
    | string t =>
      have hcmp := partialCmp_integer_string (P := P) hswap m' t
      refine ⟨fun hnone => h.number t m' hm hl ?_, (eq_string_integer heq hswap t m').2.trans ?_, ?_⟩
      · exact map_eq_none_iff.mp (hcmp.symm.trans hnone)
      · rw [show (ofLeaf (.integer m') : Variable L).partialCmp P (ofLeaf (.string t)) = _ from hcmp, map_swap_eq_iff]
      · rw [show (ofLeaf (.integer m') : Variable L).partialCmp P (ofLeaf (.string t)) = _ from hcmp, Option.map_map,
          show Ordering.swap ∘ Ordering.swap = id from funext fun _ => Ordering.swap_swap, Option.map_id]
        rfl
    | integer n =>
      refine ⟨some_ne_none _, ?_, congrArg some Std.OrientedOrd.eq_swap⟩
      show decide (m' = n) = true ↔ some (compare m' n) = some .eq
      rw [decide_eq_true_iff, some_inj, compare_eq_iff_eq]

include hswap in
theorem leaf_row {U : Set (Leaf L)} (h : Agreed P U) : ∀ k ∈ U, ∀ l ∈ U, ∀ m ∈ U,
    Row P (ofLeaf k) (ofLeaf l) (ofLeaf m) := by
  have hback {n : ℤ} {s : String} {o : Ordering} (hns : (integer n : Variable L).partialCmp P (.string s) = some o) :
      against P s n = some o.swap := by
    rw [partialCmp_integer_string hswap] at hns
    obtain ⟨p, hp, rfl⟩ := map_eq_some_iff.mp hns
    rw [Ordering.swap_swap]
    exact hp
  have hthere {n : ℤ} {s : String} {o : Ordering} (hsn : against P s n = some o.swap) :
      (integer n : Variable L).partialCmp P (.string s) = some o := by
    rw [partialCmp_integer_string hswap, hsn, map_some, Ordering.swap_swap]
  -- What `integers` says of the texts, seen from the integers.
  have hints {s : String} {m n : ℤ} (hs : .string s ∈ U) (hm : .integer m ∈ U) (hn : .integer n ∈ U) (hlt : m < n) :
      (integer m : Variable L).partialCmp P (.string s) = some .lt ∨
        (integer n : Variable L).partialCmp P (.string s) = some .gt := by
    rcases h.integers s m n hs hm hn hlt with hsm | hsn
    · exact .inl (hthere hsm)
    · exact .inr (hthere hsn)
  intro k hk l hl m hm o o' ho ho' hab hbc
  cases k with
  | constant c => exact absurd hk (h.constant c)
  | string s =>
    cases l with
    | constant c => exact absurd hl (h.constant c)
    | string t =>
      have hst : compare s t = o := some.inj hab
      cases m with
      | constant c => exact absurd hm (h.constant c)
      | string u => exact congrArg some (compare_row ho ho' hst (some.inj hbc))
      | integer n => exact row_left (h.strings s t n hk hl hm) (fun heq => by rw [heq]; rfl) ho ho' hst hbc
    | integer n =>
      cases m with
      | constant c => exact absurd hm (h.constant c)
      | string t =>
        exact congrArg some (row_middle (h.strings s t n hk hm hl) (h.strings t s n hm hk hl)
          (fun heq => by rw [heq]) ho ho' hab (hback hbc))
      | integer n' =>
        have hrow := row_right (hints hk hl hm) (fun heq => by rw [heq]) ho ho' (hthere (by rwa [Ordering.swap_swap]))
          (some.inj hbc)
        have hsn := hback hrow
        rw [Ordering.swap_swap] at hsn
        exact hsn
  | integer n =>
    cases l with
    | constant c => exact absurd hl (h.constant c)
    | string s =>
      cases m with
      | constant c => exact absurd hm (h.constant c)
      | string t =>
        exact hthere (row_right (h.strings s t n hl hm hk) (fun heq => by rw [heq]) ho ho' (hback hab)
          (some.inj hbc))
      | integer n' =>
        exact congrArg some (row_middle (hints hl hk hm) (hints hl hm hk) (fun heq => by rw [heq]) ho ho' hab
          (hthere (by rw [Ordering.swap_swap]; exact hbc)))
    | integer n' =>
      have hnn : compare n n' = o := some.inj hab
      cases m with
      | constant c => exact absurd hm (h.constant c)
      | string s => exact row_left (hints hm hk hl) (fun heq => by rw [heq]; rfl) ho ho' hnn hbc
      | integer n'' => exact congrArg some (compare_row ho ho' hnn (some.inj hbc))

include heq hswap in
theorem consistent_of_agreed {U : Set (Leaf L)} (h : Agreed P U) : Consistent P (ofLeaf '' U) := by
  have hpairs := leaf_pairs heq hswap h
  have hrev : ∀ a ∈ ofLeaf '' U, ∀ b ∈ ofLeaf '' U, b.partialCmp P a = (a.partialCmp P b).map Ordering.swap := by
    rintro _ ⟨l, hl, rfl⟩ _ ⟨m, hm, rfl⟩
    exact (hpairs l hl m hm).2.2
  refine ⟨?_, hrev, trans_of_row ?_ hrev ?_⟩
  · rintro _ ⟨l, hl, rfl⟩ _ ⟨m, hm, rfl⟩
    exact (hpairs l hl m hm).2.1
  · rintro _ ⟨l, hl, rfl⟩ _ ⟨m, hm, rfl⟩
    exact (hpairs l hl m hm).1
  · rintro _ ⟨k, hk, rfl⟩ _ ⟨l, hl, rfl⟩ _ ⟨m, hm, rfl⟩
    exact leaf_row hswap h k hk l hl m hm

theorem Consistent.no_constant {S : Set (Variable L)} (h : Consistent P S) (c : L.Stat) : constant c ∉ S := by
  intro hc
  have heq : partialCmp P (constant c) (constant c) = some Ordering.eq := congrArg some (compare_eq_iff_eq.mpr rfl)
  exact absurd ((h.eq_iff _ hc _ hc).mpr heq) Bool.false_ne_true

include hswap in
theorem agreed_of_consistent {U : Set (Leaf L)} (h : Consistent P (ofLeaf '' U)) : Agreed P U := by
  have hmem {l : Leaf L} (hl : l ∈ U) : ofLeaf l ∈ ofLeaf '' U := ⟨l, hl, rfl⟩
  have hcmp {a b : Variable L} {o : Ordering} (hab : a.partialCmp P b = some o) : a.cmp P b = o := by
    unfold cmp
    rw [hab]
    rfl
  have hfwd {s : String} {n : ℤ} {o : Ordering} (hsn : against P s n = some o) :
      (string s : Variable L).cmp P (.integer n) = o := hcmp hsn
  have hrev {n : ℤ} {s : String} {o : Ordering} (hsn : against P s n = some o) :
      (integer n : Variable L).cmp P (.string s) = o.swap := by
    refine hcmp ?_
    rw [partialCmp_integer_string hswap, hsn]
    rfl
  have hnumber : ∀ s n, .string s ∈ U → .integer n ∈ U → against P s n ≠ none := by
    intro s n hs hn hnone
    have hsn : (string s : Variable L).cmp P (.integer n) = .gt := by
      show (against P s n).getD .gt = .gt
      rw [hnone]
      rfl
    have hns : (integer n : Variable L).cmp P (.string s) = .gt := by
      unfold cmp
      rw [partialCmp_integer_string hswap, hnone]
      rfl
    have hss := h.trans _ (hmem hs) _ (hmem hn) _ (hmem hs) _ hsn hns
    have heq : (string s : Variable L).cmp P (.string s) = .eq := hcmp (congrArg some (compare_eq_iff_eq.mpr rfl))
    exact absurd (heq.symm.trans hss) (by decide)
  refine ⟨fun c hc => h.no_constant c (hmem hc), hnumber, ?_, ?_⟩
  · intro s t n hs ht hn hlt
    have hst : (string s : Variable L).cmp P (.string t) = .lt := hcmp (congrArg some (compare_lt_iff_lt.mpr hlt))
    obtain ⟨o, ho⟩ := ne_none_iff_exists'.mp (hnumber s n hs hn)
    obtain ⟨o', ho'⟩ := ne_none_iff_exists'.mp (hnumber t n ht hn)
    cases o with
    | lt => exact .inl ho
    | gt =>
      have hnt := h.trans _ (hmem hn) _ (hmem hs) _ (hmem ht) _ (hrev ho) hst
      have hswapped := Ordering.swap_inj.mp ((hrev ho').symm.trans hnt : o'.swap = Ordering.gt.swap)
      exact .inr (by rw [ho', hswapped])
    | eq =>
      cases o' with
      | gt => exact .inr ho'
      | lt =>
        have hsn := h.trans _ (hmem hs) _ (hmem ht) _ (hmem hn) _ hst (hfwd ho')
        exact absurd (hsn.symm.trans (hfwd ho)) (by decide)
      | eq =>
        have hst' := h.trans _ (hmem hs) _ (hmem hn) _ (hmem ht) _ (hfwd ho) (hrev ho')
        exact absurd (hst'.symm.trans hst) (by decide)
  · intro s m n hs hm hn hlt
    have hmn : (integer m : Variable L).cmp P (.integer n) = .lt := hcmp (congrArg some (compare_lt_iff_lt.mpr hlt))
    obtain ⟨o, ho⟩ := ne_none_iff_exists'.mp (hnumber s m hs hm)
    obtain ⟨o', ho'⟩ := ne_none_iff_exists'.mp (hnumber s n hs hn)
    cases o with
    | gt => exact .inl ho
    | lt =>
      have hsn := h.trans _ (hmem hs) _ (hmem hm) _ (hmem hn) _ (hfwd ho) hmn
      exact .inr (by rw [ho', (hfwd ho').symm.trans hsn])
    | eq =>
      cases o' with
      | lt => exact .inr ho'
      | gt =>
        have hms := h.trans _ (hmem hm) _ (hmem hn) _ (hmem hs) _ hmn (hrev ho')
        exact absurd (hms.symm.trans (hrev ho)) (by decide)
      | eq =>
        have hmn' := h.trans _ (hmem hm) _ (hmem hs) _ (hmem hn) _ (hrev ho) (hfwd ho')
        exact absurd (hmn'.symm.trans hmn) (by decide)

end

/-! ## Arrays -/

theorem cmpItems_swap {as bs : List (Variable L)}
    (h : ∀ a ∈ as, ∀ b ∈ bs, b.partialCmp P a = (a.partialCmp P b).map Ordering.swap) :
    cmpItems P bs as = (cmpItems P as bs).map Ordering.swap := by
  induction as generalizing bs with
  | nil => cases bs <;> rfl
  | cons a as ih =>
    cases bs with
    | nil => rfl
    | cons b bs =>
      have hrest := ih fun a ha b hb => h a (mem_cons_of_mem _ ha) b (mem_cons_of_mem _ hb)
      rw [cmpItems, cmpItems, h a mem_cons_self b mem_cons_self]
      rcases a.partialCmp P b with _ | _ | _ | _
      · rfl
      · rfl
      · exact hrest
      · rfl

theorem eqItems_iff {as bs : List (Variable L)}
    (h : ∀ a ∈ as, ∀ b ∈ bs, a.eq P b = true ↔ a.partialCmp P b = some .eq) :
    eqItems P as bs = true ↔ cmpItems P as bs = some .eq := by
  induction as generalizing bs with
  | nil =>
    cases bs with
    | nil => exact iff_of_true rfl rfl
    | cons b bs => exact iff_of_false Bool.false_ne_true (by intro h; cases h)
  | cons a as ih =>
    cases bs with
    | nil => exact iff_of_false Bool.false_ne_true (by intro h; cases h)
    | cons b bs =>
      have hrest := ih fun a ha b hb => h a (mem_cons_of_mem _ ha) b (mem_cons_of_mem _ hb)
      rw [eqItems, cmpItems, Bool.and_eq_true, h a mem_cons_self b mem_cons_self, hrest]
      rcases a.partialCmp P b with _ | _ | _ | _
      · exact iff_of_false (fun h => by cases h.1) (fun h => by cases h)
      · exact iff_of_false (fun h => by cases h.1) (fun h => by cases h)
      · exact and_iff_right rfl
      · exact iff_of_false (fun h => by cases h.1) (fun h => by cases h)

theorem cmpItems_ne_none {as bs : List (Variable L)} (h : ∀ a ∈ as, ∀ b ∈ bs, a.partialCmp P b ≠ none) :
    cmpItems P as bs ≠ none := by
  induction as generalizing bs with
  | nil => cases bs <;> exact some_ne_none _
  | cons a as ih =>
    cases bs with
    | nil => exact some_ne_none _
    | cons b bs =>
      have hrest := ih fun a ha b hb => h a (mem_cons_of_mem _ ha) b (mem_cons_of_mem _ hb)
      rw [cmpItems]
      rcases hp : a.partialCmp P b with _ | _ | _ | _
      · exact absurd hp (h a mem_cons_self b mem_cons_self)
      · exact some_ne_none _
      · exact hrest
      · exact some_ne_none _

theorem cmpItems_row {as bs cs : List (Variable L)} (h : ∀ a ∈ as, ∀ b ∈ bs, ∀ c ∈ cs, Row P a b c) {o o' : Ordering}
    (ho : o ≠ .gt) (ho' : o' ≠ .gt) (hab : cmpItems P as bs = some o) (hbc : cmpItems P bs cs = some o') :
    cmpItems P as cs = some (o.then o') := by
  induction as generalizing bs cs with
  | nil =>
    cases bs with
    | nil =>
      obtain rfl : Ordering.eq = o := some.inj hab
      exact hbc
    | cons b bs =>
      obtain rfl : Ordering.lt = o := some.inj hab
      cases cs with
      | nil => exact absurd (some.inj hbc).symm ho'
      | cons c cs => rfl
  | cons a as ih =>
    cases bs with
    | nil => exact absurd (some.inj hab).symm ho
    | cons b bs =>
      cases cs with
      | nil => exact absurd (some.inj hbc).symm ho'
      | cons c cs =>
        have hrow := h a mem_cons_self b mem_cons_self c mem_cons_self
        have hrest := ih fun a ha b hb c hc =>
          h a (mem_cons_of_mem _ ha) b (mem_cons_of_mem _ hb) c (mem_cons_of_mem _ hc)
        rw [cmpItems] at hab hbc ⊢
        rcases hp : a.partialCmp P b with _ | _ | _ | _ <;> rw [hp] at hab
        · cases hab
        · obtain rfl : Ordering.lt = o := some.inj hab
          rcases hq : b.partialCmp P c with _ | _ | _ | _ <;> rw [hq] at hbc
          · cases hbc
          · rw [hrow _ _ (by decide) (by decide) hp hq]
            rfl
          · rw [hrow _ _ (by decide) (by decide) hp hq]
            rfl
          · exact absurd (some.inj hbc).symm ho'
        · rcases hq : b.partialCmp P c with _ | _ | _ | _ <;> rw [hq] at hbc
          · cases hbc
          · obtain rfl : Ordering.lt = o' := some.inj hbc
            rw [hrow _ _ (by decide) (by decide) hp hq]
            exact congrArg some (then_lt ho).symm
          · rw [hrow _ _ (by decide) (by decide) hp hq]
            exact hrest hab hbc
          · exact absurd (some.inj hbc).symm ho'
        · exact absurd (some.inj hab).symm ho

variable {U : Set (Leaf L)}

section

variable (hU : ∀ l ∈ U, ∃ n, l = .integer n)
include hU

theorem built_cases {v : Variable L} (h : Built U v) :
    (∃ n, v = .integer n) ∨ ∃ items, v = .array items ∧ ∀ item ∈ items, Built U item := by
  cases h with
  | leaf hl =>
    obtain ⟨n, rfl⟩ := hU _ hl
    exact .inl ⟨n, rfl⟩
  | array hitems => exact .inr ⟨_, rfl, hitems⟩

theorem built_pairs {a : Variable L} (ha : Built U a) :
    ∀ b, Built U b → a.partialCmp P b ≠ none ∧ (a.eq P b = true ↔ a.partialCmp P b = some .eq) ∧
      b.partialCmp P a = (a.partialCmp P b).map Ordering.swap := by
  induction ha with
  | leaf hl =>
    obtain ⟨m, rfl⟩ := hU _ hl
    intro b hb
    rcases built_cases hU hb with ⟨n, rfl⟩ | ⟨items, rfl, -⟩
    · refine ⟨some_ne_none _, ?_, congrArg some Std.OrientedOrd.eq_swap⟩
      show decide (m = n) = true ↔ some (compare m n) = some .eq
      rw [decide_eq_true_iff, some_inj, compare_eq_iff_eq]
    · exact ⟨some_ne_none _, iff_of_false Bool.false_ne_true (fun h => by cases h), rfl⟩
  | @array as has ih =>
    intro b hb
    rcases built_cases hU hb with ⟨n, rfl⟩ | ⟨bs, rfl, hbs⟩
    · exact ⟨some_ne_none _, iff_of_false Bool.false_ne_true (fun h => by cases h), rfl⟩
    · refine ⟨?_, eqItems_iff fun a ha b hb => (ih a ha b (hbs b hb)).2.1,
        cmpItems_swap fun a ha b hb => (ih a ha b (hbs b hb)).2.2⟩
      exact cmpItems_ne_none fun a ha b hb => (ih a ha b (hbs b hb)).1

theorem built_row {a : Variable L} (ha : Built U a) :
    ∀ b, Built U b → ∀ c, Built U c → Row P a b c := by
  induction ha with
  | leaf hl =>
    obtain ⟨k, rfl⟩ := hU _ hl
    intro b hb c hc o o' ho ho' hab hbc
    rcases built_cases hU hb with ⟨m, rfl⟩ | ⟨bs, rfl, -⟩
    · rcases built_cases hU hc with ⟨n, rfl⟩ | ⟨cs, rfl, -⟩
      · exact congrArg some (compare_row ho ho' (some.inj hab) (some.inj hbc))
      · obtain rfl : Ordering.lt = o' := some.inj hbc
        exact congrArg some (then_lt ho).symm
    · obtain rfl : Ordering.lt = o := some.inj hab
      rcases built_cases hU hc with ⟨n, rfl⟩ | ⟨cs, rfl, -⟩
      · exact absurd (some.inj hbc).symm ho'
      · rfl
  | @array as has ih =>
    intro b hb c hc o o' ho ho' hab hbc
    rcases built_cases hU hb with ⟨m, rfl⟩ | ⟨bs, rfl, hbs⟩
    · exact absurd (some.inj hab).symm ho
    · rcases built_cases hU hc with ⟨n, rfl⟩ | ⟨cs, rfl, hcs⟩
      · exact absurd (some.inj hbc).symm ho'
      · exact cmpItems_row (fun a ha b hb c hc => ih a ha b (hbs b hb) c (hcs c hc)) ho ho' hab hbc

theorem consistent_built : Consistent P {v | Built U v} := by
  have hrev : ∀ a ∈ {v | Built U v}, ∀ b ∈ {v | Built U v}, b.partialCmp P a = (a.partialCmp P b).map Ordering.swap :=
    fun a ha b hb => (built_pairs hU ha b hb).2.2
  exact ⟨fun a ha b hb => (built_pairs hU ha b hb).2.1, hrev,
    trans_of_row (fun a ha b hb => (built_pairs hU ha b hb).1) hrev fun a ha b hb c hc => built_row hU ha b hb c hc⟩

end

theorem integers_of_consistent
    (h : Consistent P {v | Built U v}) : ∀ l ∈ U, ∃ n, l = .integer n := by
  intro l hl
  cases l with
  | integer n => exact ⟨n, rfl⟩
  | constant c => exact absurd (Built.leaf hl) (h.no_constant c)
  | string s =>
    have hempty : Built U (.array []) := .array fun v hv => absurd hv not_mem_nil
    have hgt : some Ordering.gt = (some Ordering.gt).map Ordering.swap := h.swap _ (.leaf hl) _ hempty
    cases hgt

/-- **Where equality and order are consistent:** on texts and integers without arrays, if no integer is between two
texts that are the other way round, and no text between two such integers; and with arrays, if all else are integers. -/
theorem consistent_iff (heq : ∀ x y, P.eq x y = true ↔ P.cmp x y = some .eq)
    (hswap : ∀ x y, P.cmp y x = (P.cmp x y).map Ordering.swap) (U : Set (Leaf L)) :
    (Consistent P (ofLeaf '' U) ↔ Agreed P U) ∧ (Consistent P {v | Built U v} ↔ ∀ l ∈ U, ∃ n, l = .integer n) :=
  ⟨⟨agreed_of_consistent hswap, consistent_of_agreed heq hswap⟩, integers_of_consistent, consistent_built⟩

/-- One constant, and floats that are integers. -/
def counted : Language := ⟨Empty, Unit, Empty, Empty, ℤ⟩

def countedPrims : Prims counted where
  ofInt := id
  add := fun (a b : ℤ) => a + b
  sub := fun (a b : ℤ) => a - b
  mul := fun (a b : ℤ) => a * b
  div := fun (a b : ℤ) => a / b
  neg := fun (a : ℤ) => -a
  zero := (0 : ℤ)
  eq := fun (a b : ℤ) => decide (a = b)
  cmp := fun (a b : ℤ) => some (compare a b)
  toUsize := Int.toNat
  display := fun (a : ℤ) => toString a
  parseInt := String.toInt?
  parseUsize := String.toNat?
  parseFloat := String.toInt?
  asStr := fun _ => "relay"
  toId := fun _ => 0

theorem consistent_counted :
    (Consistent countedPrims (ofLeaf '' {.integer 1, .integer 2}) ↔ Agreed countedPrims {.integer 1, .integer 2}) ∧
      (Consistent countedPrims {v | Built {.integer 1, .integer 2} v} ↔
        ∀ l ∈ ({.integer 1, .integer 2} : Set (Leaf counted)), ∃ n, l = .integer n) := by
  refine consistent_iff ?_ ?_ _
  · intro (x : ℤ) (y : ℤ)
    show decide (x = y) = true ↔ some (compare x y) = some .eq
    rw [decide_eq_true_iff, some_inj, compare_eq_iff_eq]
  · intro (x : ℤ) (y : ℤ)
    exact congrArg some Std.OrientedOrd.eq_swap

/-- The constant `relay` is not equal to itself, `1` and the constant are each before the other, and so are the text
`a` and the empty array behind each other. -/
theorem not_consistent : ¬ Consistent countedPrims Set.univ := fun h => h.no_constant () trivial

end Variable

end MailServer.Common.Expr
