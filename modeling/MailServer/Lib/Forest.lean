import Mathlib.Logic.Function.Basic
import Mathlib.Tactic.Common

/-!
# Forests given by parents

A forest is a set of nodes with a parent or none for each.  Only the parents of nodes count.

* `Depth`: how many nodes stand on the way to the top.  `Within`: how far below a node another one is.
* `not_within_up`: nothing that has a depth is above itself.
* `Depth.update`: the depths when one node is given another parent.
* `Forest`: the parent of a node is a node, and every node has a depth.  `Forest.insert`, `Forest.move`,
  `Forest.erase`: what may be done to one.
-/

namespace MailServer.Lib

variable {ι : Type*} {up up' : ι → Option ι} {a b : ι} {o p : Option ι} {m n i j : ℕ}

/-- The number of nodes from a place up to the top. -/
inductive Depth (up : ι → Option ι) : Option ι → ℕ → Prop
  | top : Depth up none 0
  | node {a : ι} {n : ℕ} : Depth up (up a) n → Depth up (some a) (n + 1)

/-- A place is so many steps below the node `a`, or is `a` itself. -/
inductive Within (up : ι → Option ι) (a : ι) : Option ι → ℕ → Prop
  | self : Within up a (some a) 0
  | step {b : ι} {j : ℕ} : Within up a (up b) j → Within up a (some b) (j + 1)

theorem Depth.unique (hm : Depth up o m) (hn : Depth up o n) : m = n := by
  induction hm generalizing n with
  | top => cases hn; rfl
  | node _ ih =>
    cases hn with
    | node hn => rw [ih hn]

theorem Within.depth (hw : Within up a o j) (hn : Depth up o n) : ∃ m, Depth up (some a) m ∧ n = m + j := by
  induction hw generalizing n with
  | self => exact ⟨n, hn, rfl⟩
  | step _ ih =>
    cases hn with
    | node hn =>
      obtain ⟨m, hm, rfl⟩ := ih hn
      exact ⟨m, hm, rfl⟩

/-- **No cycles**: a node is not below itself. -/
theorem not_within_up (hn : Depth up (some a) n) : ¬ Within up a (up a) j := by
  intro hw
  cases hn with
  | node hn =>
    obtain ⟨m, hm, rfl⟩ := hw.depth hn
    have := hm.unique (.node hn)
    omega

theorem Within.trans (hab : Within up a (some b) i) (hb : Within up b o j) : ∃ k, Within up a o k := by
  induction hb with
  | self => exact ⟨i, hab⟩
  | step _ ih =>
    obtain ⟨k, hk⟩ := ih
    exact ⟨k + 1, .step hk⟩

/-! ## Another parent -/

section

variable [DecidableEq ι]

/-- **Another parent for one node**: it takes what is below it along. -/
theorem Depth.update (hn : Depth up o n) (hm : Depth (Function.update up a p) p m) :
    (Depth (Function.update up a p) o n ∧ ∀ j, ¬ Within up a o j) ∨
      ∃ j, Within up a o j ∧ Depth (Function.update up a p) o (m + 1 + j) := by
  induction hn with
  | top => exact .inl ⟨.top, nofun⟩
  | @node b n _ ih =>
    by_cases hb : b = a
    · subst hb
      refine .inr ⟨0, .self, .node ?_⟩
      rwa [Function.update_self]
    · have hup : Function.update up a p b = up b := Function.update_of_ne hb p up
      rcases ih with ⟨hd, hnot⟩ | ⟨j, hw, hd⟩
      · refine .inl ⟨.node (hup ▸ hd), ?_⟩
        rintro j (_ | hw)
        · exact hb rfl
        · exact hnot _ hw
      · exact .inr ⟨j + 1, .step hw, .node (hup ▸ hd)⟩

/-- A place that is not below the node keeps its depth. -/
theorem Depth.update_of_not_within (hn : Depth up o n) (hnot : ∀ j, ¬ Within up a o j) :
    Depth (Function.update up a p) o n := by
  induction hn with
  | top => exact .top
  | @node b n _ ih =>
    have hb : b ≠ a := by
      rintro rfl
      exact hnot 0 .self
    refine .node ?_
    rw [Function.update_of_ne hb]
    exact ih fun j hw => hnot (j + 1) (.step hw)

end

/-! ## Forests -/

structure Forest (node : ι → Prop) (up : ι → Option ι) : Prop where
  parent : ∀ a p, node a → up a = some p → node p
  rooted : ∀ a, node a → ∃ n, Depth up (some a) n

variable {node node' : ι → Prop}

/-- What a node is below is a node. -/
theorem Forest.node_of_within (hf : Forest node up) (hw : Within up a o j) (ho : ∀ b, o = some b → node b) :
    node a := by
  induction hw with
  | self => exact ho a rfl
  | @step b j _ ih => exact ih fun c hc => hf.parent b c (ho b rfl) hc

/-- Only the parents of nodes count. -/
theorem Forest.depth_congr (hf : Forest node up) (h : ∀ a, node a → up a = up' a) (ho : ∀ b, o = some b → node b)
    (hn : Depth up o n) : Depth up' o n := by
  induction hn with
  | top => exact .top
  | @node b n _ ih =>
    refine .node ?_
    rw [← h b (ho b rfl)]
    exact ih fun c hc => hf.parent b c (ho b rfl) hc

theorem Forest.congr (hf : Forest node up) (hnode : ∀ a, node' a ↔ node a) (h : ∀ a, node a → up a = up' a) :
    Forest node' up' where
  parent a p ha hp := by
    rw [hnode] at ha
    exact (hnode p).mpr (hf.parent a p ha (by rw [h a ha, hp]))
  rooted a ha := by
    rw [hnode] at ha
    obtain ⟨n, hn⟩ := hf.rooted a ha
    refine ⟨n, hf.depth_congr h (fun b hb => ?_) hn⟩
    obtain rfl := Option.some.inj hb
    exact ha

/-- The depth of a place under a node, or at the top. -/
theorem Forest.exists_depth (hf : Forest node up) (ho : ∀ b, o = some b → node b) : ∃ n, Depth up o n := by
  cases o with
  | none => exact ⟨0, .top⟩
  | some b => exact hf.rooted b (ho b rfl)

section

variable [DecidableEq ι]

/-- Another parent, for a node that the parent is not below. -/
theorem Forest.move (hf : Forest node up) (hp : ∀ b, p = some b → node b) (hnot : ∀ j, ¬ Within up a p j) :
    Forest node (Function.update up a p) where
  parent x q hx hq := by
    by_cases hxa : x = a
    · subst hxa
      rw [Function.update_self] at hq
      exact hp q hq
    · rw [Function.update_of_ne hxa] at hq
      exact hf.parent x q hx hq
  rooted x hx := by
    obtain ⟨m, hm⟩ := hf.exists_depth hp
    obtain ⟨n, hn⟩ := hf.rooted x hx
    rcases hn.update (hm.update_of_not_within hnot) with ⟨hd, -⟩ | ⟨j, -, hd⟩
    · exact ⟨n, hd⟩
    · exact ⟨_, hd⟩

/-- A new node below a node or at the top. -/
theorem Forest.insert (hf : Forest node up) (hnew : ¬ node a) (hp : ∀ b, p = some b → node b) :
    Forest (fun x => x = a ∨ node x) (Function.update up a p) := by
  have hnot : ∀ j, ¬ Within up a p j := fun j hw => hnew (hf.node_of_within hw hp)
  have hmove := hf.move hp hnot
  obtain ⟨m, hm⟩ := hf.exists_depth hp
  constructor
  · rintro x q (rfl | hx) hq
    · rw [Function.update_self] at hq
      exact .inr (hp q hq)
    · exact .inr (hmove.parent x q hx hq)
  · rintro x (rfl | hx)
    · refine ⟨m + 1, .node ?_⟩
      rw [Function.update_self]
      exact hm.update_of_not_within hnot
    · exact hmove.rooted x hx

end

/-- A node without children goes. -/
theorem Forest.erase (hf : Forest node up) (hleaf : ∀ x, node x → up x ≠ some a) :
    Forest (fun x => x ≠ a ∧ node x) up where
  parent x q hx hq := by
    refine ⟨?_, hf.parent x q hx.2 hq⟩
    rintro rfl
    exact hleaf x hx.2 hq
  rooted x hx := hf.rooted x hx.2

end MailServer.Lib
