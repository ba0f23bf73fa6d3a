import MailServer.Lib.Forest

/-!
# Addresses in a forest

Every node of a forest has a spelling, and its address is what is spelled on the way from the top down to it.

* `Way`: what is spelled on the way from one place down to another.
* `distinct_iff`: that is when no two nodes have the same address.
-/

namespace MailServer.Lib

open List

variable {ι σ : Type*} {node : ι → Prop} {up : ι → Option ι} {spell : ι → List σ} {address : ι → List σ}

/-- What is spelled on the way from a place down to another one. -/
inductive Way (node : ι → Prop) (up : ι → Option ι) (spell : ι → List σ) : Option ι → List σ → Option ι → Prop
  | here (p : Option ι) : Way node up spell p [] p
  | down {v : ι} {s : List σ} {o : Option ι} : node v → Way node up spell (some v) s o →
      Way node up spell (up v) (spell v ++ s) o

/-- No two nodes with the same parent can be followed down to the same spelling. -/
def Distinct (node : ι → Prop) (up : ι → Option ι) (spell : ι → List σ) : Prop :=
  ∀ u v, node u → node v → u ≠ v → up u = up v → ∀ s t o o', Way node up spell (some u) s o →
    Way node up spell (some v) t o' → spell u ++ s ≠ spell v ++ t

/-- A node has the address of its parent, if any, and its own spelling. -/
def Addressed (node : ι → Prop) (up : ι → Option ι) (spell address : ι → List σ) : Prop :=
  ∀ v, node v → address v = (up v).elim [] address ++ spell v

namespace Way

variable {o p q : Option ι} {s t : List σ}

theorem trans (h : Way node up spell p s q) (h' : Way node up spell q t o) : Way node up spell p (s ++ t) o := by
  induction h with
  | here => exact h'
  | down hv _ ih =>
    rw [append_assoc]
    exact .down hv (ih h')

theorem step {v : ι} (hv : node v) : Way node up spell (up v) (spell v) (some v) := by
  have h : Way node up spell (up v) (spell v ++ []) (some v) := .down hv (.here _)
  rwa [append_nil] at h

/-- The way ends below where it starts. -/
theorem exists_within {v : ι} (h : Way node up spell p s o) (hp : p = some v) :
    ∃ x j, o = some x ∧ Within up v (some x) j := by
  induction h generalizing v with
  | here => exact ⟨v, 0, hp, .self⟩
  | @down w s o hw _ ih =>
    obtain ⟨x, j, hx, hwithin⟩ := ih rfl
    have hstep : Within up v (some w) 1 := .step (hp ▸ .self)
    obtain ⟨k, hk⟩ := hstep.trans hwithin
    exact ⟨x, k, hx, hk⟩

theorem node_end {v x : ι} (h : Way node up spell (some v) s (some x)) (hv : node v) : node x := by
  generalize hp : some v = p at h
  generalize ho : some x = o at h
  induction h generalizing v with
  | here =>
    obtain rfl := Option.some.inj (hp.trans ho.symm)
    exact hv
  | down hw _ ih => exact ih hw rfl ho

theorem address_eq (hnode : Addressed node up spell address) (h : Way node up spell p s o) :
    o.elim [] address = p.elim [] address ++ s := by
  induction h with
  | here => exact (append_nil _).symm
  | @down v s o hv _ ih =>
    rw [ih, ← append_assoc, ← hnode v hv]
    rfl

end Way

/-- There is a way from the top to every node, which spells its address. -/
theorem Forest.way (hf : Forest node up) (hnode : Addressed node up spell address) {n : ℕ} {o : Option ι}
    (hn : Depth up o n) (ho : ∀ v, o = some v → node v) : Way node up spell none (o.elim [] address) o := by
  induction hn with
  | top => exact .here none
  | @node v n _ ih =>
    have hv := ho v rfl
    show Way _ _ _ none (address v) (some v)
    rw [hnode v hv]
    exact (ih fun p hp => hf.parent v p hv hp).trans (.step hv)

/-- Of two places that a place is below, one is below the other. -/
theorem Within.comparable {a b : ι} {o : Option ι} {i j : ℕ} (ha : Within up a o i) (hb : Within up b o j) :
    (∃ k, Within up a (some b) k) ∨ ∃ k, Within up b (some a) k := by
  induction ha generalizing j with
  | self => exact .inr ⟨j, hb⟩
  | @step c i hc ih =>
    cases hb with
    | self => exact .inl ⟨i + 1, .step hc⟩
    | step hb => exact ih hb

/-- Siblings have nothing below them in common. -/
theorem Forest.eq_of_within (hf : Forest node up) {u v : ι} {o : Option ι} {i j : ℕ} (hnode : node u)
    (hup : up u = up v) (hu : Within up u o i) (hv : Within up v o j) : u = v := by
  obtain ⟨n, hn⟩ := hf.rooted u hnode
  have hsame : ∃ m, Depth up (some u) m ∧ Depth up (some v) m := by
    cases hn with
    | node hn => exact ⟨_, .node hn, .node (hup ▸ hn)⟩
  obtain ⟨m, hmu, hmv⟩ := hsame
  rcases hu.comparable hv with ⟨k, hk⟩ | ⟨k, hk⟩
  · obtain ⟨d, hd, heq⟩ := hk.depth hmv
    obtain rfl : k = 0 := by
      have := hd.unique hmu
      omega
    cases hk
    rfl
  · obtain ⟨d, hd, heq⟩ := hk.depth hmu
    obtain rfl : k = 0 := by
      have := hd.unique hmv
      omega
    cases hk
    rfl

/-- Two ways from one place that spell the same end at the same place. -/
theorem Distinct.eq (h : Distinct node up spell) (hne : ∀ v, spell v ≠ []) {p p' o o' : Option ι} {s t : List σ}
    (hs : Way node up spell p s o) (ht : Way node up spell p' t o') (hp : p = p') (hst : s = t) : o = o' := by
  induction hs generalizing p' t with
  | here p =>
    cases ht with
    | here => exact hp
    | @down w t o' hw _ =>
      have hnil := (append_eq_nil_iff.mp hst.symm).1
      exact absurd hnil (hne w)
  | @down v s o hv hway ih =>
    cases ht with
    | here =>
      have hnil := (append_eq_nil_iff.mp hst).1
      exact absurd hnil (hne v)
    | @down w t o' hw hway' =>
      by_cases heq : v = w
      · subst heq
        exact ih hway' rfl (append_cancel_left hst)
      · exact absurd hst (h v w hv hw heq hp s t o o' hway hway')

/-- **Different nodes have different addresses** if and only if siblings are never followed by the same spelling. -/
theorem Forest.distinct_iff (hf : Forest node up) (hnode : Addressed node up spell address) (hne : ∀ v, spell v ≠ []) :
    Distinct node up spell ↔ ∀ x y, node x → node y → address x = address y → x = y := by
  constructor
  · intro h x y hx hy heq
    have hway {z : ι} (hz : node z) : Way node up spell none (address z) (some z) := by
      obtain ⟨n, hn⟩ := hf.rooted z hz
      exact hf.way hnode hn fun w hw => Option.some.inj hw ▸ hz
    exact Option.some.inj (h.eq hne (hway hx) (hway hy) rfl heq)
  · intro h u v hu hv huv hup s t o o' hs ht hst
    obtain ⟨x, i, rfl, hx⟩ := hs.exists_within rfl
    obtain ⟨y, j, rfl, hy⟩ := ht.exists_within rfl
    have hxs : address x = address u ++ s := hs.address_eq hnode
    have hyt : address y = address v ++ t := ht.address_eq hnode
    have hsame : address x = address y := by
      rw [hxs, hyt, hnode u hu, hnode v hv, hup, append_assoc, append_assoc, hst]
    obtain rfl := h x y (hs.node_end hu) (ht.node_end hv) hsame
    exact huv (hf.eq_of_within hu hup hx hy)

end MailServer.Lib
