import MailServer.Lib.Except

/-!
# Walks that take a node after its children

`postorder children done take overflow depth x`: the walk from `x` down the children, at most `depth` nodes with
children one below the other.  Nodes without children are taken at once, the others after their children; nothing
is done once the state is `done`.  A node may be met many times: what `take` does with one it has seen is its own.

* `Deep`: there are so many nodes with children, one below the other.  `post_of_not_deep`: a walk with fewer does not fail.
* `not_post_of_deep`: one with more does, unless there is nothing left to be done.
* `post_postorder`: an invariant that `take` keeps where all children of its node have been taken holds after the
  walk, and the node has been taken.
-/

namespace MailServer.Lib

universe u v

variable {α σ : Type u} {ε : Type v}

section

variable (children : α → Option (List α)) (done : σ → Bool) (take : α → σ → σ) (overflow : ε)

def postorder : ℕ → α → σ → Except ε σ
  | depth, x, s =>
    if done s then .ok s
    else
      match children x, depth with
      | none, _ => .ok (take x s)
      | some _, 0 => .error overflow
      | some xs, depth + 1 => do
        let s ← xs.foldlM (fun s y => postorder depth y s) s
        .ok (take x s)

end

variable {children : α → Option (List α)} {done : σ → Bool} {take : α → σ → σ} {overflow : ε}
  {N : α → Prop} {I : σ → Prop} {T : σ → α → Prop}

/-- What is taken stays so, and after the list all of it is. -/
theorem Post.foldlM_taken {step : σ → α → Except ε σ} {E : ε → Prop}
    (hstep : ∀ s x, I s → N x → Post (fun s' => I s' ∧ T s' x ∧ ∀ y, T s y → T s' y) E (step s x)) :
    ∀ {l : List α} {s : σ}, I s → (∀ x ∈ l, N x) →
      Post (fun s' => I s' ∧ (∀ x ∈ l, T s' x) ∧ ∀ y, T s y → T s' y) E (l.foldlM step s)
  | [], _, hs, _ => ⟨hs, nofun, fun _ h => h⟩
  | x :: l, s, hs, hl => by
    refine (hstep s x hs (hl x List.mem_cons_self)).bind ?_
    rintro s₁ ⟨hs₁, hx, hold⟩
    refine (Post.foldlM_taken hstep hs₁ fun y hy => hl y (List.mem_cons_of_mem x hy)).mono ?_
    rintro s₂ ⟨hs₂, htaken, hkept⟩
    refine ⟨hs₂, ?_, fun y hy => hkept y (hold y hy)⟩
    exact List.forall_mem_cons.mpr ⟨hkept x hx, htaken⟩

theorem post_postorder (hchildren : ∀ x xs, N x → children x = some xs → ∀ y ∈ xs, N y)
    (hdone : ∀ s, I s → done s = true → ∀ x, N x → T s x)
    (htake : ∀ s x, I s → N x → (∀ xs, children x = some xs → ∀ y ∈ xs, T s y) → I (take x s) ∧ T (take x s) x)
    (hkept : ∀ s x y, T s y → T (take x s) y) (depth : ℕ) (s : σ) (x : α) (hs : I s) (hx : N x) :
    Post (fun s' => I s' ∧ T s' x ∧ ∀ y, T s y → T s' y) (fun _ => True)
      (postorder children done take overflow depth x s) := by
  induction depth generalizing s x with
  | zero =>
    unfold postorder
    split_ifs with hd
    · exact ⟨hs, hdone s hs hd x hx, fun _ h => h⟩
    · cases hc : children x with
      | none =>
        obtain ⟨hs', hx'⟩ := htake s x hs hx fun xs h => by rw [hc] at h; cases h
        exact ⟨hs', hx', hkept s x⟩
      | some xs => trivial
  | succ depth ih =>
    unfold postorder
    split_ifs with hd
    · exact ⟨hs, hdone s hs hd x hx, fun _ h => h⟩
    · cases hc : children x with
      | none =>
        obtain ⟨hs', hx'⟩ := htake s x hs hx fun xs h => by rw [hc] at h; cases h
        exact ⟨hs', hx', hkept s x⟩
      | some xs =>
        refine (Post.foldlM_taken ih hs (hchildren x xs hx hc)).bind ?_
        rintro s₁ ⟨hs₁, htaken, hold⟩
        obtain ⟨hs', hx'⟩ := htake s₁ x hs₁ hx fun ys hys => by
          rw [hc] at hys
          cases hys
          exact htaken
        exact ⟨hs', hx', fun y hy => hkept s₁ x y (hold y hy)⟩

/-! ## How deep a walk goes -/

section

variable (children) in
/-- There are `n` nodes with children one below the other, of which the first is `x`. -/
def Deep : ℕ → α → Prop
  | 0, _ => True
  | n + 1, x => ∃ xs, children x = some xs ∧ (n = 0 ∨ ∃ y ∈ xs, Deep n y)

theorem Deep.of_succ : ∀ {n : ℕ} {x : α}, Deep children (n + 1) x → Deep children n x
  | 0, _, _ => trivial
  | n + 1, _, ⟨xs, hxs, h⟩ => by
    obtain ⟨y, hy, hdeep⟩ := h.resolve_left (Nat.succ_ne_zero n)
    exact ⟨xs, hxs, Or.inr ⟨y, hy, hdeep.of_succ⟩⟩

/-- A node without children is the end of its way. -/
theorem children_of_deep {n : ℕ} {x : α} (h : Deep children (n + 1) x) : ∃ xs, children x = some xs := by
  obtain ⟨xs, hxs, -⟩ := h
  exact ⟨xs, hxs⟩

theorem post_of_not_deep (depth : ℕ) (s : σ) (x : α) (hx : ¬ Deep children (depth + 1) x) :
    Post (fun _ => True) (fun _ => False) (postorder children done take overflow depth x s) := by
  induction depth generalizing s x with
  | zero =>
    unfold postorder
    split_ifs
    · trivial
    · cases hc : children x with
      | none => trivial
      | some xs => exact absurd ⟨xs, hc, Or.inl rfl⟩ hx
  | succ depth ih =>
    unfold postorder
    split_ifs
    · trivial
    · cases hc : children x with
      | none => trivial
      | some xs =>
        have hshallow : ∀ y ∈ xs, ¬ Deep children (depth + 1) y := by
          intro y hy hdeep
          exact hx ⟨xs, hc, Or.inr ⟨y, hy, hdeep⟩⟩
        have hwalk (s : σ) : Post (fun _ => True) (fun _ => False)
            (xs.foldlM (fun s y => postorder children done take overflow depth y s) s) :=
          Post.foldlM_of_mem (fun s y hy _ => ih s y (hshallow y hy)) trivial
        exact (hwalk s).bind fun _ _ => trivial

variable {P : σ → Prop} {x : α} (hdone : ∀ s, P s → done s = false) (htake : ∀ s y, P s → y ≠ x → P (take y s))
include hdone htake

/-- What holds while `x` is not taken holds throughout: below `x` it is too deep to come back and take it. -/
theorem post_of_deep (depth : ℕ) (hx : Deep children (depth + 1) x) (s : σ) (hs : P s) :
    (∀ y, Post P (fun _ => True) (postorder children done take overflow depth y s)) ∧
      ∀ y, Deep children (depth + 1) y →
        Post (fun _ => False) (fun _ => True) (postorder children done take overflow depth y s) := by
  induction depth generalizing s with
  | zero =>
    have hnot : ∀ y, children y ≠ none →
        Post (fun _ => False) (fun _ => True) (postorder children done take overflow 0 y s) := by
      intro y hy
      unfold postorder
      rw [if_neg (by rw [hdone s hs]; decide)]
      cases hc : children y with
      | none => exact absurd hc hy
      | some ys => trivial
    refine ⟨fun y => ?_, fun y hy => ?_⟩
    · cases hc : children y with
      | none =>
        have hne : y ≠ x := by
          rintro rfl
          obtain ⟨ys, hys⟩ := children_of_deep hx
          rw [hc] at hys
          cases hys
        unfold postorder
        rw [if_neg (by rw [hdone s hs]; decide), hc]
        exact htake s y hs hne
      | some ys => exact (hnot y (by rw [hc]; exact Option.some_ne_none ys)).mono fun _ h => h.elim
    · obtain ⟨ys, hys⟩ := children_of_deep hy
      exact hnot y (by rw [hys]; exact Option.some_ne_none ys)
  | succ depth ih =>
    have hfold (ys : List α) (s : σ) (hs : P s) : Post P (fun _ => True)
        (ys.foldlM (fun s y => postorder children done take overflow depth y s) s) :=
      Post.foldlM (fun s y hs => (ih hx.of_succ s hs).1 y) hs
    have hnot : ∀ y, Deep children (depth + 1 + 1) y →
        Post (fun _ => False) (fun _ => True) (postorder children done take overflow (depth + 1) y s) := by
      rintro y ⟨ys, hc, hdeep⟩
      obtain ⟨z, hz, hbelow⟩ := hdeep.resolve_left (Nat.succ_ne_zero depth)
      unfold postorder
      rw [if_neg (by rw [hdone s hs]; decide), hc]
      refine Post.bind (Q := fun _ => False) ?_ fun _ h => h.elim
      obtain ⟨l₁, l₂, rfl⟩ := List.append_of_mem hz
      rw [List.foldlM_append]
      refine (hfold l₁ s hs).bind ?_
      intro s₁ hs₁
      exact ((ih hx.of_succ s₁ hs₁).2 z hbelow).bind fun _ h => h.elim
    refine ⟨fun y => ?_, hnot⟩
    by_cases hyx : y = x
    · rw [hyx]
      exact (hnot x hx).mono fun _ h => h.elim
    · unfold postorder
      rw [if_neg (by rw [hdone s hs]; decide)]
      cases hc : children y with
      | none => exact htake s y hs hyx
      | some ys => exact (hfold ys s hs).bind fun s₁ hs₁ => htake s₁ y hs₁ hyx

theorem not_post_of_deep {depth : ℕ} (hx : Deep children (depth + 1) x) {l : List α} (hmem : x ∈ l) {s : σ} (hs : P s) :
    Post (fun _ => False) (fun _ => True)
      (l.foldlM (fun s y => postorder children done take overflow depth y s) s) := by
  obtain ⟨l₁, l₂, rfl⟩ := List.append_of_mem hmem
  have hfirst : Post P (fun _ => True) (l₁.foldlM (fun s y => postorder children done take overflow depth y s) s) :=
    Post.foldlM (fun s y hs => (post_of_deep hdone htake depth hx s hs).1 y) hs
  rw [List.foldlM_append]
  refine hfirst.bind ?_
  intro s₁ hs₁
  exact ((post_of_deep hdone htake depth hx s₁ hs₁).2 x hx).bind fun _ h => h.elim

end

end MailServer.Lib
