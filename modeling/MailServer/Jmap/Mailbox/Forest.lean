import MailServer.Jmap.Mailbox.Set
import MailServer.Lib.Forest

/-!
# The mailboxes of an account are a forest

* `Tidy`: parents exist, nothing is its own ancestor, no branch is too deep, siblings have different names and
  mailboxes different roles.
* `checkParent_spec`: what the walk up from a parent finds.  `mailboxSetItem_spec`: what is checked of a change.
* `CreateFine`, `UpdateFine`: what the checks leave out.
* `inv_creates`, `inv_updates`, `inv_destroy`: what the phases of a request keep.
* `tidy_run`: runs of requests.
-/

namespace MailServer.Jmap.Mailbox

open MailServer.Types MailServer.Common MailServer.JmapProto MailServer.Email MailServer.Utils MailServer.Lib
open List Option Account

/-! ## The forest -/

/-- The parent that a stored number stands for. -/
def parentOf (parentId : ℕ) : Option ℕ := if parentId = 0 then none else some (parentId - 1)

/-- The parents of stored mailboxes. -/
def up (mailboxes : HashMap ℕ Mailbox) (id : ℕ) : Option ℕ := mailboxes[id]?.bind fun m => parentOf m.parentId

/-- The mailbox is stored. -/
def Stored (mailboxes : HashMap ℕ Mailbox) (id : ℕ) : Prop := mailboxes[id]? ≠ none

/-- Two mailboxes that are siblings of one name. -/
def SameName (s : Server) (m m' : Mailbox) : Prop :=
  m.parentId = m'.parentId ∧ s.toLowercase m.name = s.toLowercase m'.name

/-- Two mailboxes with one role. -/
def SameRole (m m' : Mailbox) : Prop := m.role = m'.role ∧ m.role ≠ .none

structure Tidy (s : Server) (mailboxes : HashMap ℕ Mailbox) : Prop where
  parent : ∀ (id : ℕ) (m : Mailbox), mailboxes[id]? = some m → m.parentId ≠ 0 → Stored mailboxes (m.parentId - 1)
  acyclic : ∀ id j, Stored mailboxes id → ¬ Within (up mailboxes) id (up mailboxes id) j
  depth : ∀ id, Stored mailboxes id → ∃ n ≤ s.mailboxMaxDepth, Depth (up mailboxes) (some id) n
  siblings : ∀ (id id' : ℕ) (m m' : Mailbox), mailboxes[id]? = some m → mailboxes[id']? = some m' → SameName s m m' → id = id'
  roles : ∀ (id id' : ℕ) (m m' : Mailbox), mailboxes[id]? = some m → mailboxes[id']? = some m' → SameRole m m' → id = id'

structure Inv (s : Server) (mailboxes : HashMap ℕ Mailbox) : Prop extends Tidy s mailboxes where
  forest : Forest (Stored mailboxes) (up mailboxes)

variable {s : Server} {mailboxes : HashMap ℕ Mailbox}

variable {id : ℕ} {m changes : Mailbox} {a : Account} {update : Option (ℕ × Mailbox)}
  {ctx : SetContext} {created : List (ℕ × Mailbox)} {earlier : List Update}

theorem stored_iff : Stored mailboxes id ↔ ∃ m, mailboxes[id]? = some m := ne_none_iff_exists'

theorem up_eq (h : mailboxes[id]? = some m) : up mailboxes id = parentOf m.parentId := by
  rw [up, h]
  rfl

theorem parentOf_eq_some {parentId p : ℕ} : parentOf parentId = some p ↔ parentId = p + 1 := by
  unfold parentOf
  split_ifs with h
  · simp [h]
  · rw [some.injEq]
    omega

theorem inv_mk (hforest : Forest (Stored mailboxes) (up mailboxes))
    (hdepth : ∀ id n, Stored mailboxes id → Depth (up mailboxes) (some id) n → n ≤ s.mailboxMaxDepth)
    (hsiblings : ∀ (id id' : ℕ) (m m' : Mailbox), mailboxes[id]? = some m → mailboxes[id']? = some m' → SameName s m m' → id = id')
    (hroles : ∀ (id id' : ℕ) (m m' : Mailbox), mailboxes[id]? = some m → mailboxes[id']? = some m' → SameRole m m' → id = id') :
    Inv s mailboxes where
  parent id m hm hne := hforest.parent id _ (by rw [Stored, hm]; simp) (by rw [up_eq hm, parentOf, if_neg hne])
  acyclic id j hid := by
    obtain ⟨n, hn⟩ := hforest.rooted id hid
    exact not_within_up hn
  depth id hid := by
    obtain ⟨n, hn⟩ := hforest.rooted id hid
    exact ⟨n, hdepth id n hid hn, hn⟩
  siblings := hsiblings
  roles := hroles
  forest := hforest

theorem Inv.depth_le (h : Inv s mailboxes) {n : ℕ} (hid : Stored mailboxes id)
    (hn : Depth (up mailboxes) (some id) n) : n ≤ s.mailboxMaxDepth := by
  obtain ⟨m, hm, hd⟩ := h.depth id hid
  rw [hn.unique hd]
  exact hm

theorem Inv.parentOf_stored (h : Inv s mailboxes) {p : ℕ} (hm : mailboxes[id]? = some m)
    (hp : parentOf m.parentId = some p) : Stored mailboxes p :=
  h.forest.parent id p (by rw [Stored, hm]; simp) (by rw [up_eq hm, hp])

/-! ## What is checked -/

/-- **The walk up from a parent** reaches the top in time and does not meet the mailbox, or the parent is not
stored yet. -/
theorem checkParent_spec {a : Account} (hinv : Inv s a.mailboxes) {ctx : SetContext} {current : ℕ} :
    ∀ {steps depth parentId : ℕ}, checkParent a ctx (current + 1) steps depth parentId = .ok () →
      (∃ n < steps, Depth (up a.mailboxes) (parentOf parentId) n ∧ (∀ p, parentOf parentId = some p →
          Stored a.mailboxes p) ∧ ∀ j, ¬ Within (up a.mailboxes) current (parentOf parentId) j) ∨
        ∃ p, parentOf parentId = some p ∧ ¬ Stored a.mailboxes p ∧ p ∈ ctx.mailboxIds
  | 0, depth, parentId, h => by cases h
  | steps + 1, depth, parentId, h => by
    rw [checkParent] at h
    by_cases hself : parentId = current + 1
    · rw [if_pos hself] at h
      cases h
    rw [if_neg hself] at h
    by_cases hzero : parentId = 0
    · have hparent : parentOf parentId = none := if_pos hzero
      rw [hparent]
      exact .inl ⟨0, Nat.succ_pos steps, .top, (fun _ h => by cases h), nofun⟩
    have hparent : parentOf parentId = some (parentId - 1) := if_neg hzero
    have hne : parentId - 1 ≠ current := by omega
    rw [hparent]
    cases hm : a.mailboxes[parentId - 1]? with
    | none =>
      rw [hm] at h
      split_ifs at h with hcontains
      exact .inr ⟨_, rfl, by rw [Stored, hm]; simp, by simpa using hcontains⟩
    | some m =>
      rw [hm] at h
      dsimp only at h
      split_ifs at h
      have hstored : Stored a.mailboxes (parentId - 1) := by rw [Stored, hm]; simp
      rcases checkParent_spec hinv h with ⟨n, hn, hd, -, hnot⟩ | ⟨p, hp, hnstored, -⟩
      · rw [← up_eq hm] at hd hnot
        refine .inl ⟨n + 1, Nat.succ_lt_succ hn, .node hd, ?_, ?_⟩
        · rintro p ⟨⟩
          exact hstored
        · rintro j (_ | hw)
          · exact hne rfl
          · exact hnot _ hw
      · exact absurd (hinv.parentOf_stored hm hp) hnstored

/-- What is checked of a create or an update that is accepted. -/
structure Checked (s : Server) (a : Account) (ctx : SetContext) (update : Option (ℕ × Mailbox))
    (changes : Mailbox) : Prop where
  parent : (∀ u ∈ update, u.2.parentId ≠ changes.parentId) →
    (∃ n < s.mailboxMaxDepth, Depth (up a.mailboxes) (parentOf changes.parentId) n ∧
        ∀ u ∈ update, ∀ j, ¬ Within (up a.mailboxes) u.1 (parentOf changes.parentId) j) ∨
      ∃ p, parentOf changes.parentId = some p ∧ ¬ Stored a.mailboxes p ∧ p ∈ ctx.mailboxIds
  role : (∀ u ∈ update, u.2.role ≠ changes.role) → ∀ (id : ℕ) (m : Mailbox), a.mailboxes[id]? = some m →
    ¬ SameRole m changes
  name : (∀ u ∈ update, u.2.name ≠ changes.name) → ∀ (id : ℕ) (m : Mailbox), a.mailboxes[id]? = some m →
    ¬ SameName s m changes

theorem checkRole_spec (h : checkRole a update changes = .ok ())
    (hupdate : ∀ u ∈ update, u.2.role ≠ changes.role) (id : ℕ) (m : Mailbox)
    (hm : a.mailboxes[id]? = some m) : ¬ SameRole m changes := by
  rintro ⟨hrole, hne⟩
  unfold checkRole at h
  rw [if_pos (by simpa [Option.all_eq_true] using hupdate), if_pos ⟨hrole ▸ hne, any_toList.mpr ⟨id, m, hm, by simpa⟩⟩]
    at h
  cases h

theorem checkName_spec (h : checkName s a update changes = .ok ())
    (hupdate : ∀ u ∈ update, u.2.name ≠ changes.name) (id : ℕ) (m : Mailbox)
    (hm : a.mailboxes[id]? = some m) : ¬ SameName s m changes := by
  rintro ⟨hparent, hname⟩
  unfold checkName at h
  split_ifs at h with hnonempty hclash
  exact hclash ⟨by simpa [Option.all_eq_true] using hupdate, any_toList.mpr ⟨id, m, hm, by simp [hparent, hname]⟩⟩

theorem checkHierarchy_spec (hinv : Inv s a.mailboxes)
    (h : checkHierarchy s a ctx update changes = .ok ())
    (hupdate : ∀ u ∈ update, u.2.parentId ≠ changes.parentId) :
    (∃ n < s.mailboxMaxDepth, Depth (up a.mailboxes) (parentOf changes.parentId) n ∧
        ∀ u ∈ update, ∀ j, ¬ Within (up a.mailboxes) u.1 (parentOf changes.parentId) j) ∨
      ∃ p, parentOf changes.parentId = some p ∧ ¬ Stored a.mailboxes p ∧ p ∈ ctx.mailboxIds := by
  unfold checkHierarchy at h
  rw [if_pos (by simpa [Option.all_eq_true] using hupdate)] at h
  cases update with
  | none =>
    rcases checkParent_spec hinv h with ⟨n, hn, hd, -, -⟩ | hnew
    · exact .inl ⟨n, hn, hd, fun _ h => by cases h⟩
    · exact .inr hnew
  | some u =>
    rcases checkParent_spec hinv h with ⟨n, hn, hd, -, hnot⟩ | hnew
    · refine .inl ⟨n, hn, hd, ?_⟩
      rintro v ⟨⟩
      exact hnot
    · exact .inr hnew

/-- **The checks of one create or update.** -/
theorem mailboxSetItem_spec (hinv : Inv s a.mailboxes) {changes_ : Properties}
    (h : mailboxSetItem s a ctx changes_ update = .ok changes) : Checked s a ctx update changes := by
  unfold mailboxSetItem at h
  cases hread : readProperties s ctx changes_ ((update.map Prod.snd).getD (.new "")) false with
  | error e => rw [hread] at h; cases h
  | ok r =>
    obtain ⟨changes', hasAclChanges⟩ := r
    rw [hread] at h
    dsimp only at h
    cases hparent : checkHierarchy s a ctx update changes' with
    | error e => rw [hparent] at h; cases h
    | ok _ =>
      cases hrole : checkRole a update changes' with
      | error e => rw [hparent, hrole] at h; cases h
      | ok _ =>
        cases hname : checkName s a update changes' with
        | error e => rw [hparent, hrole, hname] at h; cases h
        | ok _ =>
          rw [hparent, hrole, hname] at h
          obtain rfl : changes' = changes := by
            split_ifs at h
            · cases hacl : s.aclValidate changes'.acls with
              | some e => rw [hacl] at h; cases h
              | none => rw [hacl] at h; exact Except.ok.inj h
            · exact Except.ok.inj h
          exact ⟨checkHierarchy_spec hinv hparent, checkRole_spec hrole, checkName_spec hname⟩

/-! ## Writing one mailbox -/

theorem getElem?_put {k : ℕ} :
    (mailboxes.insert id m)[k]? = if id = k then some m else mailboxes[k]? := HashMap.getElem?_insert

theorem stored_put {k : ℕ} : Stored (mailboxes.insert id m) k ↔ k = id ∨ Stored mailboxes k := by
  rw [Stored, getElem?_put]
  split_ifs with h
  · simp [h]
  · simp [Stored, Ne.symm h]

theorem up_put :
    up (mailboxes.insert id m) = Function.update (up mailboxes) id (parentOf m.parentId) := by
  funext k
  rw [up, getElem?_put, Function.update_apply]
  by_cases h : k = id
  · subst h
    simp
  · rw [if_neg (Ne.symm h), if_neg h]
    rfl

/-- **A mailbox is written** that was not stored, or whose new parent is not below it. -/
theorem inv_put (hinv : Inv s mailboxes)
    (hparent : ∀ p, parentOf m.parentId = some p → Stored mailboxes p)
    (hnot : ∀ j, ¬ Within (up mailboxes) id (parentOf m.parentId) j)
    (hsiblings : ∀ (k : ℕ) (m' : Mailbox), mailboxes[k]? = some m' → k ≠ id → ¬ SameName s m' m)
    (hroles : ∀ (k : ℕ) (m' : Mailbox), mailboxes[k]? = some m' → k ≠ id → ¬ SameRole m' m)
    (hdepth : ∀ n, Depth (up mailboxes) (parentOf m.parentId) n → n < s.mailboxMaxDepth ∧
      ∀ k j, Stored mailboxes k → Within (up mailboxes) id (some k) j → n + 1 + j ≤ s.mailboxMaxDepth) :
    Inv s (mailboxes.insert id m) := by
  have hforest : Forest (Stored (mailboxes.insert id m)) (up (mailboxes.insert id m)) := by
    rw [up_put]
    by_cases hid : Stored mailboxes id
    · refine (hinv.forest.move (a := id) hparent hnot).congr (fun k => ?_) fun _ _ => rfl
      rw [stored_put]
      exact ⟨fun h => h.elim (fun h => h ▸ hid) fun h => h, .inr⟩
    · exact (hinv.forest.insert hid hparent).congr (fun k => stored_put) fun _ _ => rfl
  obtain ⟨n, hn⟩ := hinv.forest.exists_depth hparent
  obtain ⟨hlt, hbelow⟩ := hdepth n hn
  have hn' : Depth (Function.update (up mailboxes) id (parentOf m.parentId)) (parentOf m.parentId) n :=
    hn.update_of_not_within hnot
  refine inv_mk hforest (fun k d hk hd => ?_) ?_ ?_
  · rw [up_put] at hd
    rcases stored_put.1 hk with rfl | hk
    · have hself : Depth (Function.update (up mailboxes) k (parentOf m.parentId)) (some k) (n + 1) := by
        refine .node ?_
        rwa [Function.update_self]
      rw [hd.unique hself]
      exact hlt
    · obtain ⟨d', hd'⟩ := hinv.forest.rooted k hk
      rcases hd'.update hn' with ⟨hsame, -⟩ | ⟨j, hw, hmoved⟩
      · rw [hd.unique hsame]
        exact hinv.depth_le hk hd'
      · rw [hd.unique hmoved]
        exact hbelow k j hk hw
  · intro k k' m₁ m₂ h₁ h₂ hsame
    rw [getElem?_put] at h₁ h₂
    by_contra hne
    split_ifs at h₁ h₂ with hk hk' hk'
    · exact hne (hk.symm.trans hk')
    · obtain rfl := some.inj h₁
      exact hsiblings k' m₂ h₂ (Ne.symm hk') ⟨hsame.1.symm, hsame.2.symm⟩
    · obtain rfl := some.inj h₂
      exact hsiblings k m₁ h₁ (Ne.symm hk) hsame
    · exact hne (hinv.siblings k k' m₁ m₂ h₁ h₂ hsame)
  · intro k k' m₁ m₂ h₁ h₂ hsame
    rw [getElem?_put] at h₁ h₂
    by_contra hne
    split_ifs at h₁ h₂ with hk hk' hk'
    · exact hne (hk.symm.trans hk')
    · obtain rfl := some.inj h₁
      exact hroles k' m₂ h₂ (Ne.symm hk') ⟨hsame.1.symm, hsame.1 ▸ hsame.2⟩
    · obtain rfl := some.inj h₂
      exact hroles k m₁ h₁ (Ne.symm hk) hsame
    · exact hne (hinv.roles k k' m₁ m₂ h₁ h₂ hsame)

theorem applyAll_mailboxOps {b : Account} {current : Option Mailbox}
    (h : applyAll (apply s.hash) (mailboxOps id current changes) a = some b) :
    b = { a with mailboxes := a.mailboxes.insert id changes } ∧
      (∀ p, parentOf changes.parentId = some p → Stored a.mailboxes p) ∧
      ∀ c ∈ current, ∃ stored, a.mailboxes[id]? = some stored ∧ s.hash.mailbox stored = s.hash.mailbox c := by
  have hput : ∀ a : Account, applyAll (apply s.hash) [.mailbox id current (some changes)] a = some b →
      b = { a with mailboxes := a.mailboxes.insert id changes } ∧
        ∀ c ∈ current, ∃ stored, a.mailboxes[id]? = some stored ∧ s.hash.mailbox stored = s.hash.mailbox c := by
    intro a h
    rw [applyAll, apply] at h
    cases hm : putArchive s.hash.mailbox a.mailboxes id current (some changes) with
    | none => rw [hm] at h; cases h
    | some m =>
      rw [hm] at h
      obtain rfl := some.inj h
      refine ⟨?_, ?_⟩
      · unfold putArchive at hm
        split_ifs at hm
        obtain rfl := some.inj hm
        rfl
      · rintro c rfl
        exact putArchive_current hm
  unfold mailboxOps at h
  by_cases hpos : 0 < changes.parentId
  · rw [if_pos hpos, singleton_append, applyAll, apply] at h
    by_cases hparent : (a.mailboxes[changes.parentId - 1]?).isSome
    · rw [if_pos hparent] at h
      obtain ⟨hb, hcurrent⟩ := hput a h
      refine ⟨hb, fun p hp => ?_, hcurrent⟩
      obtain rfl : changes.parentId - 1 = p := by
        rw [parentOf_eq_some] at hp
        omega
      exact isSome_iff_ne_none.mp hparent
    · rw [if_neg hparent] at h
      cases h
  · rw [if_neg hpos] at h
    obtain ⟨hb, hcurrent⟩ := hput a h
    refine ⟨hb, fun p hp => ?_, hcurrent⟩
    rw [parentOf_eq_some] at hp
    omega

/-! ## Creates -/

/-- The mailboxes with those that a request has created so far. -/
def withCreated (mailboxes : HashMap ℕ Mailbox) (created : List (ℕ × Mailbox)) : HashMap ℕ Mailbox :=
  created.foldl (fun m c => m.insert c.1 c.2) mailboxes

theorem withCreated_concat (created : List (ℕ × Mailbox)) (c : ℕ × Mailbox) :
    withCreated mailboxes (created ++ [c]) = (withCreated mailboxes created).insert c.1 c.2 := by
  rw [withCreated, foldl_append]
  rfl

theorem mem_of_withCreated
    (h : (withCreated mailboxes created)[id]? = some m) : mailboxes[id]? = some m ∨ (id, m) ∈ created := by
  induction created using List.reverseRecOn with
  | nil => exact .inl h
  | append_singleton created c ih =>
    rw [withCreated_concat, getElem?_put] at h
    split_ifs at h with hid
    · obtain rfl := some.inj h
      exact .inr (by rw [← hid]; simp)
    · exact (ih h).imp_right fun hmem => mem_append_left _ hmem

theorem withCreated_of_ne (h : ∀ e ∈ created, e.1 ≠ id) :
    (withCreated mailboxes created)[id]? = mailboxes[id]? := by
  induction created using List.reverseRecOn with
  | nil => rfl
  | append_singleton created c ih =>
    rw [withCreated_concat, getElem?_put, if_neg (h c (by simp))]
    exact ih fun e he => h e (mem_append_left _ he)

/-- What the checks of a create leave out: the creates before it in the request. -/
structure CreateFine (s : Server) (a : Account) (earlier : List (ℕ × Mailbox)) (c : ℕ × Mailbox) : Prop where
  name : ∀ e ∈ earlier, ¬ SameName s e.2 c.2
  role : ∀ e ∈ earlier, ¬ SameRole e.2 c.2
  /-- the walk ends at a parent that is not stored yet -/
  depth : ∀ e ∈ earlier, parentOf c.2.parentId = some e.1 → ∀ n,
    Depth (up (withCreated a.mailboxes earlier)) (some e.1) n → n < s.mailboxMaxDepth

/-- A create that passed the checks. -/
structure Accepted (s : Server) (a : Account) (earlier : List (ℕ × Mailbox)) (c : ℕ × Mailbox) : Prop where
  documentId : c.1 = a.nextMailboxId + earlier.length
  checked : ∃ ctx, Checked s a ctx none c.2 ∧ ∀ p ∈ ctx.mailboxIds, Stored a.mailboxes p ∨ p ∈ earlier.map Prod.fst

/-- Document ids are not used twice. -/
def Fresh (a : Account) : Prop := ∀ id, Stored a.mailboxes id → id < a.nextMailboxId

theorem inv_create (hinv : Inv s a.mailboxes) (hfresh : Fresh a) {earlier : List (ℕ × Mailbox)}
    {c : ℕ × Mailbox}
    (hids : ∀ e ∈ earlier, a.nextMailboxId ≤ e.1 ∧ e.1 < a.nextMailboxId + earlier.length)
    (hc : Accepted s a earlier c) (hfine : CreateFine s a earlier c)
    (hb : Inv s (withCreated a.mailboxes earlier))
    (hparent : ∀ p, parentOf c.2.parentId = some p → Stored (withCreated a.mailboxes earlier) p) :
    Inv s (withCreated a.mailboxes (earlier ++ [c])) := by
  have hnew : ¬ Stored (withCreated a.mailboxes earlier) c.1 := by
    intro hstored
    obtain ⟨m, hm⟩ := stored_iff.1 hstored
    rw [hc.documentId] at hm
    rcases mem_of_withCreated hm with hm | hm
    · have := hfresh _ (stored_iff.2 ⟨m, hm⟩)
      omega
    · exact absurd (hids _ hm).2 (lt_irrefl _)
  have hnone : ∀ j k, Stored (withCreated a.mailboxes earlier) k →
      ¬ Within (up (withCreated a.mailboxes earlier)) c.1 (some k) j := by
    intro j k hk hw
    refine hnew (hb.forest.node_of_within hw ?_)
    rintro _ ⟨⟩
    exact hk
  obtain ⟨ctx, hchecked, hctx⟩ := hc.checked
  rw [withCreated_concat]
  refine inv_put hb hparent (fun j hw => ?_) ?_ ?_ (fun n hn => ⟨?_, fun k j hk hw => absurd hw (hnone j k hk)⟩)
  · exact hnew (hb.forest.node_of_within hw hparent)
  · intro k m hm _
    rcases mem_of_withCreated hm with hm | hm
    · exact hchecked.name (fun _ h => by cases h) k m hm
    · exact hfine.name _ hm
  · intro k m hm _
    rcases mem_of_withCreated hm with hm | hm
    · exact hchecked.role (fun _ h => by cases h) k m hm
    · exact hfine.role _ hm
  · -- a parent that was stored was walked up from; another one was created before
    have hkept : ∀ k, Stored a.mailboxes k → up a.mailboxes k = up (withCreated a.mailboxes earlier) k := by
      intro k hk
      have hne : ∀ e ∈ earlier, e.1 ≠ k := by
        rintro e he rfl
        exact absurd (hfresh _ hk) (not_lt.mpr (hids e he).1)
      rw [up, up, withCreated_of_ne hne]
    by_cases hold : ∀ p, parentOf c.2.parentId = some p → Stored a.mailboxes p
    · rcases hchecked.parent (fun _ h => by cases h) with ⟨n₀, hlt, hd, -⟩ | ⟨p, hp, hnot, -⟩
      · rw [hn.unique (hinv.forest.depth_congr hkept hold hd)]
        exact hlt
      · exact absurd (hold p hp) hnot
    · push Not at hold
      obtain ⟨p, hp, hnot⟩ := hold
      obtain ⟨m, hm⟩ := stored_iff.1 (hparent p hp)
      rcases mem_of_withCreated hm with hm | hm
      · exact absurd (stored_iff.2 ⟨m, hm⟩) hnot
      · rw [hp] at hn
        exact hfine.depth _ hm hp n hn

theorem ids_of_accepted {before l : List (ℕ × Mailbox)} (h : EachAfter (Accepted s a) before l)
    (hbefore : ∀ e ∈ before, a.nextMailboxId ≤ e.1 ∧ e.1 < a.nextMailboxId + before.length) :
    ∀ e ∈ before ++ l, a.nextMailboxId ≤ e.1 ∧ e.1 < a.nextMailboxId + (before ++ l).length := by
  induction l generalizing before with
  | nil => simpa using hbefore
  | cons c l ih =>
    rw [append_cons]
    refine ih h.2 fun e he => ?_
    have hid := h.1.documentId
    rw [length_append, length_singleton]
    rcases mem_append.mp he with he | he
    · have := hbefore e he
      omega
    · obtain rfl := mem_singleton.mp he
      omega

/-- **Creates that are written**, one after the other. -/
theorem inv_creates {a : Account} (hinv : Inv s a.mailboxes) (hfresh : Fresh a) :
    ∀ {l before : List (ℕ × Mailbox)} {b b' : Account},
      (∀ e ∈ before, a.nextMailboxId ≤ e.1 ∧ e.1 < a.nextMailboxId + before.length) →
      EachAfter (Accepted s a) before l → EachAfter (CreateFine s a) before l →
      b.mailboxes = withCreated a.mailboxes before → Inv s b.mailboxes →
      applyAll (apply s.hash) (l.map fun c => mailboxOps c.1 none c.2).flatten b = some b' →
      Inv s b'.mailboxes ∧ b'.mailboxes = withCreated a.mailboxes (before ++ l) ∧
        b'.nextMailboxId = b.nextMailboxId
  | [], before, b, b', _, _, _, hb, hbinv, h => by
    obtain rfl := some.inj h
    exact ⟨hbinv, by rw [append_nil, hb], rfl⟩
  | c :: l, before, b, b', hids, hacc, hfine, hb, hbinv, h => by
    rw [map_cons, flatten_cons, applyAll_append] at h
    obtain ⟨b₁, h₁, h₂⟩ := bind_eq_some_iff.mp h
    obtain ⟨rfl, hparent, -⟩ := applyAll_mailboxOps h₁
    rw [hb] at hbinv hparent
    have hstep := inv_create hinv hfresh hids hacc.1 hfine.1 hbinv hparent
    have hids' := ids_of_accepted (l := [c]) ⟨hacc.1, trivial⟩ hids
    have hb₁ : b.mailboxes.insert c.1 c.2 = withCreated a.mailboxes (before ++ [c]) := by
      rw [withCreated_concat, hb]
    obtain ⟨hinv', hb', hnext⟩ := inv_creates (b := { b with mailboxes := b.mailboxes.insert c.1 c.2 }) hinv hfresh
      hids' hacc.2 hfine.2 hb₁ (by rw [hb₁]; exact hstep) h₂
    exact ⟨hinv', by rw [hb', append_assoc, singleton_append], hnext⟩

/-- **The loop over the creates** accepts creates that were checked. -/
theorem createEach_spec {a : Account} (hinv : Inv s a.mailboxes) :
    ∀ (l : List (String × Option Properties)) {ctx : SetContext} {nextId : ℕ} {batch : List (ℕ × Mailbox)},
      nextId = a.nextMailboxId + batch.length → EachAfter (Accepted s a) [] batch →
      (∀ p ∈ ctx.mailboxIds, Stored a.mailboxes p ∨ p ∈ batch.map Prod.fst) →
      EachAfter (Accepted s a) [] (createEach s a l ctx nextId batch).2.2 ∧
        (createEach s a l ctx nextId batch).2.1 =
          a.nextMailboxId + (createEach s a l ctx nextId batch).2.2.length ∧
        ∀ p ∈ (createEach s a l ctx nextId batch).1.mailboxIds, Stored a.mailboxes p ∨
          p ∈ (createEach s a l ctx nextId batch).2.2.map Prod.fst
  | [], ctx, nextId, batch, hnext, hacc, hctx => ⟨hacc, hnext, hctx⟩
  | (id, none) :: l, ctx, nextId, batch, hnext, hacc, hctx => createEach_spec hinv l hnext hacc hctx
  | (id, some object) :: l, ctx, nextId, batch, hnext, hacc, hctx => by
    rw [createEach]
    split_ifs
    · exact createEach_spec hinv l hnext hacc hctx
    · cases hitem : mailboxSetItem s a ctx object none with
      | error e => exact createEach_spec hinv l hnext hacc hctx
      | ok changes =>
        refine createEach_spec hinv l ?_ (eachAfter_concat.mpr ⟨hacc, hnext, ctx, mailboxSetItem_spec hinv hitem, hctx⟩) ?_
        · rw [length_append, length_singleton]
          omega
        · intro p hp
          rw [map_append, mem_append]
          rcases mem_append.mp hp with hp | hp
          · exact (hctx p hp).imp_right .inl
          · obtain rfl := mem_singleton.mp hp
            exact .inr (.inr (by simp))

/-! ## Updates -/

/-- The mailboxes as the updates of a request leave them so far. -/
def withUpdated (mailboxes : HashMap ℕ Mailbox) (updates : List Update) : HashMap ℕ Mailbox :=
  updates.foldl (fun m u => m.insert u.documentId u.changes) mailboxes

theorem withUpdated_concat (updates : List Update) (u : Update) :
    withUpdated mailboxes (updates ++ [u]) = (withUpdated mailboxes updates).insert u.documentId u.changes := by
  rw [withUpdated, foldl_append]
  rfl

theorem mem_of_withUpdated {updates : List Update}
    (h : (withUpdated mailboxes updates)[id]? = some m) :
    mailboxes[id]? = some m ∨ ∃ u ∈ updates, u.documentId = id ∧ u.changes = m := by
  induction updates using List.reverseRecOn with
  | nil => exact .inl h
  | append_singleton updates u ih =>
    rw [withUpdated_concat, getElem?_put] at h
    split_ifs at h with hid
    · exact .inr ⟨u, by simp, hid, some.inj h⟩
    · exact (ih h).imp_right fun ⟨v, hv, h⟩ => ⟨v, mem_append_left _ hv, h⟩

def Update.moved (u : Update) : Prop := u.current.parentId ≠ u.changes.parentId

def Update.renamed (u : Update) : Prop := u.current.name ≠ u.changes.name

/-- What the checks of an update leave out: the updates before it in the request, and of a mailbox that is moved,
its new siblings and what is below it. -/
structure UpdateFine (s : Server) (a : Account) (earlier : List Update) (u : Update) : Prop where
  /-- the hash of an archive tells it from another one -/
  archive : ∀ e ∈ earlier, e.documentId = u.documentId → s.hash.mailbox e.changes = s.hash.mailbox u.current →
    e.changes = u.current
  name : u.renamed → ∀ e ∈ earlier, e.documentId ≠ u.documentId → ¬ SameName s e.changes u.changes
  role : u.current.role ≠ u.changes.role → ∀ e ∈ earlier, e.documentId ≠ u.documentId →
    ¬ SameRole e.changes u.changes
  /-- the names of siblings are looked at when a mailbox is renamed, not when it is moved -/
  sibling : u.moved → ¬ u.renamed → ∀ (id : ℕ) (m : Mailbox), (withUpdated a.mailboxes earlier)[id]? = some m →
    id ≠ u.documentId → ¬ SameName s m u.changes
  /-- the walk up goes over the mailboxes as they were before the updates -/
  below : u.moved → (∃ e ∈ earlier, e.moved) → ∀ j,
    ¬ Within (up (withUpdated a.mailboxes earlier)) u.documentId (parentOf u.changes.parentId) j
  /-- the walk up does not see what is below the mailbox -/
  depth : u.moved → ∀ n k j, Depth (up (withUpdated a.mailboxes earlier)) (parentOf u.changes.parentId) n →
    Within (up (withUpdated a.mailboxes earlier)) u.documentId (some k) j → (0 < j ∨ ∃ e ∈ earlier, e.moved) →
    n + 1 + j ≤ s.mailboxMaxDepth

/-- An update that passed the checks. -/
structure Update.Accepted (s : Server) (a : Account) (u : Update) : Prop where
  current : a.mailboxes[u.documentId]? = some u.current
  checked : ∃ ctx, Checked s a ctx (some (u.documentId, u.current)) u.changes ∧
    ∀ p ∈ ctx.mailboxIds, Stored a.mailboxes p

theorem up_withUpdated (hacc : ∀ e ∈ earlier, e.Accepted s a)
    (hmoved : ∀ e ∈ earlier, ¬ e.moved) : up (withUpdated a.mailboxes earlier) = up a.mailboxes := by
  induction earlier using List.reverseRecOn with
  | nil => rfl
  | append_singleton earlier u ih =>
    have hcurrent := (hacc u (by simp)).current
    have hsame : u.current.parentId = u.changes.parentId := not_not.mp (hmoved u (by simp))
    rw [withUpdated_concat, up_put, ih (fun e he => hacc e (mem_append_left _ he))
      fun e he => hmoved e (mem_append_left _ he), ← hsame, ← up_eq hcurrent, Function.update_eq_self]

theorem inv_update {u : Update} (hacc : ∀ e ∈ earlier, e.Accepted s a) (hu : u.Accepted s a)
    (hfine : UpdateFine s a earlier u) (hb : Inv s (withUpdated a.mailboxes earlier))
    (hcurrent : (withUpdated a.mailboxes earlier)[u.documentId]? = some u.current)
    (hparent : ∀ p, parentOf u.changes.parentId = some p → Stored (withUpdated a.mailboxes earlier) p) :
    Inv s (withUpdated a.mailboxes (earlier ++ [u])) := by
  obtain ⟨ctx, hchecked, hctx⟩ := hu.checked
  have hself : Stored (withUpdated a.mailboxes earlier) u.documentId := stored_iff.2 ⟨_, hcurrent⟩
  rw [withUpdated_concat]
  refine inv_put hb hparent ?_ ?_ ?_ ?_
  · intro j hw
    by_cases hmoved : u.moved
    · by_cases hearlier : ∃ e ∈ earlier, e.moved
      · exact hfine.below hmoved hearlier j hw
      · have hup := up_withUpdated hacc fun e he hm => hearlier ⟨e, he, hm⟩
        rw [hup] at hw
        rcases hchecked.parent (by rintro _ ⟨⟩; exact hmoved) with ⟨n, -, -, hnot⟩ | ⟨p, hp, hnot, hmem⟩
        · exact hnot _ rfl j hw
        · exact hnot (hctx p hmem)
    · rw [← not_not.mp hmoved, ← up_eq hcurrent] at hw
      exact hb.acyclic _ j hself hw
  · intro k m hm hk hsame
    by_cases hrenamed : u.renamed
    · rcases mem_of_withUpdated hm with hm | ⟨e, he, rfl, rfl⟩
      · exact hchecked.name (by rintro _ ⟨⟩; exact hrenamed) k m hm hsame
      · exact hfine.name hrenamed e he hk hsame
    · by_cases hmoved : u.moved
      · exact hfine.sibling hmoved hrenamed k m hm hk hsame
      · refine hk (hb.siblings _ _ _ _ hm hcurrent ?_)
        rw [SameName, not_not.mp hmoved, not_not.mp hrenamed]
        exact hsame
  · intro k m hm hk hsame
    by_cases hrole : u.current.role = u.changes.role
    · refine hk (hb.roles _ _ _ _ hm hcurrent ?_)
      rw [SameRole, hrole]
      exact hsame
    · rcases mem_of_withUpdated hm with hm | ⟨e, he, rfl, rfl⟩
      · exact hchecked.role (by rintro _ ⟨⟩; exact hrole) k m hm hsame
      · exact hfine.role hrole e he hk hsame
  · intro n hn
    by_cases hmoved : u.moved
    · -- the mailbox itself is where the walk up was long enough, unless another one was moved before
      have hlt : n + 1 ≤ s.mailboxMaxDepth := by
        by_cases hearlier : ∃ e ∈ earlier, e.moved
        · exact hfine.depth hmoved n _ 0 hn .self (.inr hearlier)
        · have hup := up_withUpdated hacc fun e he hm => hearlier ⟨e, he, hm⟩
          rw [hup] at hn
          rcases hchecked.parent (by rintro _ ⟨⟩; exact hmoved) with ⟨n₀, hlt, hd, -⟩ | ⟨p, hp, hnot, hmem⟩
          · rw [hn.unique hd]
            exact hlt
          · exact absurd (hctx p hmem) hnot
      refine ⟨hlt, fun k j hk hw => ?_⟩
      rcases Nat.eq_zero_or_pos j with rfl | hj
      · exact hlt
      · exact hfine.depth hmoved n k j hn hw (.inl hj)
    · -- nothing moves, so everything is as deep as it was
      rw [← not_not.mp hmoved, ← up_eq hcurrent] at hn
      have hown : Depth (up (withUpdated a.mailboxes earlier)) (some u.documentId) (n + 1) := .node hn
      refine ⟨hb.depth_le hself hown, fun k j hk hw => ?_⟩
      obtain ⟨d, hd⟩ := hb.forest.rooted k hk
      obtain ⟨m, hm, rfl⟩ := hw.depth hd
      rw [hown.unique hm]
      exact hb.depth_le hk hd

/-- **Updates that are written**, one after the other. -/
theorem inv_updates {a : Account} (hinv : Inv s a.mailboxes) :
    ∀ {l before : List Update} {b b' : Account}, (∀ e ∈ before, e.Accepted s a) → (∀ e ∈ l, e.Accepted s a) →
      EachAfter (UpdateFine s a) before l → b.mailboxes = withUpdated a.mailboxes before → Inv s b.mailboxes →
      applyAll (apply s.hash)
        (l.map fun u => mailboxOps u.documentId (some u.current) u.changes).flatten b = some b' →
      Inv s b'.mailboxes ∧ b'.mailboxes = withUpdated a.mailboxes (before ++ l) ∧
        b'.nextMailboxId = b.nextMailboxId
  | [], before, b, b', _, _, _, hb, hbinv, h => by
    obtain rfl := some.inj h
    exact ⟨hbinv, by rw [append_nil, hb], rfl⟩
  | u :: l, before, b, b', hbefore, hacc, hfine, hb, hbinv, h => by
    rw [map_cons, flatten_cons, applyAll_append] at h
    obtain ⟨b₁, h₁, h₂⟩ := bind_eq_some_iff.mp h
    obtain ⟨rfl, hparent, hread⟩ := applyAll_mailboxOps h₁
    rw [hb] at hbinv hparent hread
    have hu := hacc u mem_cons_self
    -- the archive that is replaced is the one that was read
    have hcurrent : (withUpdated a.mailboxes before)[u.documentId]? = some u.current := by
      obtain ⟨stored, hstored, hhash⟩ := hread u.current rfl
      rw [hstored]
      rcases mem_of_withUpdated hstored with hm | ⟨e, he, hid, rfl⟩
      · rw [← hm, hu.current]
      · rw [hfine.1.archive e he hid hhash]
    have hstep := inv_update hbefore hu hfine.1 hbinv hcurrent hparent
    have hb₁ : b.mailboxes.insert u.documentId u.changes = withUpdated a.mailboxes (before ++ [u]) := by
      rw [withUpdated_concat, hb]
    have hbefore' : ∀ e ∈ before ++ [u], e.Accepted s a := by
      intro e he
      rcases mem_append.mp he with he | he
      · exact hbefore e he
      · obtain rfl := mem_singleton.mp he
        exact hu
    obtain ⟨hinv', hb', hnext⟩ := inv_updates
      (b := { b with mailboxes := b.mailboxes.insert u.documentId u.changes }) hinv hbefore'
      (fun e he => hacc e (mem_cons_of_mem _ he)) hfine.2 hb₁ (by rw [hb₁]; exact hstep) h₂
    exact ⟨hinv', by rw [hb', append_assoc, singleton_append], hnext⟩

/-- **The loop over the updates** accepts updates that were checked. -/
theorem updateEach_spec {a : Account} (hinv : Inv s a.mailboxes) :
    ∀ (l : List (Id × Option Properties)) {ctx : SetContext} {batch : List Update},
      (∀ p ∈ ctx.mailboxIds, Stored a.mailboxes p) → (∀ u ∈ batch, u.Accepted s a) →
      ∀ u ∈ (updateEach s a l ctx batch).2, u.Accepted s a
  | [], ctx, batch, _, hacc => hacc
  | (id, object) :: l, ctx, batch, hctx, hacc => by
    unfold updateEach
    split_ifs
    · exact updateEach_spec hinv l hctx hacc
    · cases object with
      | none => exact updateEach_spec hinv l hctx hacc
      | some object =>
        cases hm : a.mailboxes[id.documentId.toNat]? with
        | none => exact updateEach_spec hinv l hctx hacc
        | some mailbox =>
          dsimp only
          cases checkUpdate ctx mailbox object with
          | some e => exact updateEach_spec hinv l hctx hacc
          | none =>
            cases hitem : mailboxSetItem s a ctx object (some (id.documentId.toNat, mailbox)) with
            | error e => exact updateEach_spec hinv l hctx hacc
            | ok changes =>
              refine updateEach_spec hinv l hctx fun u hu => ?_
              rcases mem_append.mp hu with hu | hu
              · exact hacc u hu
              · obtain rfl := mem_singleton.mp hu
                exact ⟨hm, ctx, mailboxSetItem_spec hinv hitem, hctx⟩

/-! ## Destroying -/

/-- A write of a batch that destroys a mailbox. -/
def DestroyOp (documentId : ℕ) (op : Op) : Prop :=
  (∃ id current changes, op = .message id current changes) ∨ ∃ m, op = .mailbox documentId (some m) none

theorem destroyOp_of_batch {accessToken : AccessToken} {accountId : UInt32} {documentId : ℕ} {removeEmails : Bool}
    {archives : List (ℕ × MessageData)} {mailbox : Option Mailbox} {batch : List (List Op)}
    (h : destroyBatch accessToken accountId documentId removeEmails archives mailbox = .ok batch) :
    ∀ group ∈ batch, ∀ op ∈ group, DestroyOp documentId op := by
  obtain ⟨m, rfl⟩ := destroyBatch_spec h
  intro group hgroup op hop
  rcases mem_append.mp hgroup with hgroup | hgroup
  · obtain ⟨id, prev, changes, rfl, -⟩ := mem_destroyMessages hgroup
    obtain rfl := mem_singleton.mp hop
    exact .inl ⟨_, _, _, rfl⟩
  · obtain rfl := mem_singleton.mp hgroup
    obtain rfl := mem_singleton.mp hop
    exact .inr ⟨m, rfl⟩

theorem inv_erase (hinv : Inv s mailboxes) {documentId : ℕ}
    (hleaf : ∀ (id : ℕ) (m : Mailbox), mailboxes[id]? = some m → m.parentId ≠ documentId + 1) :
    Inv s (mailboxes.erase documentId) := by
  have hget : ∀ k : ℕ, (mailboxes.erase documentId)[k]? = if documentId = k then none else mailboxes[k]? :=
    fun k => HashMap.getElem?_erase
  have hkept : ∀ {k : ℕ} {m : Mailbox}, (mailboxes.erase documentId)[k]? = some m → mailboxes[k]? = some m := by
    intro k m hm
    rw [hget] at hm
    split_ifs at hm
    exact hm
  have hstored : ∀ k, Stored (mailboxes.erase documentId) k ↔ k ≠ documentId ∧ Stored mailboxes k := by
    intro k
    rw [Stored, hget]
    split_ifs with hk
    · simp [hk]
    · simp [Stored, Ne.symm hk]
  have hup : ∀ k, k ≠ documentId ∧ Stored mailboxes k → up mailboxes k = up (mailboxes.erase documentId) k := by
    rintro k ⟨hk, -⟩
    rw [up, up, hget, if_neg hk.symm]
  have herase := hinv.forest.erase (a := documentId) fun k hk hparent => by
    obtain ⟨m, hm⟩ := stored_iff.1 hk
    rw [up_eq hm, parentOf_eq_some] at hparent
    exact hleaf k m hm hparent
  have hforest : Forest (Stored (mailboxes.erase documentId)) (up (mailboxes.erase documentId)) :=
    herase.congr hstored hup
  refine inv_mk hforest (fun k n hk hn => ?_) ?_ ?_
  · refine hinv.depth_le ((hstored k).mp hk).2
      (hforest.depth_congr (fun j hj => (hup j ((hstored j).mp hj)).symm) ?_ hn)
    rintro _ ⟨⟩
    exact hk
  · exact fun k k' m m' hm hm' => hinv.siblings k k' m m' (hkept hm) (hkept hm')
  · exact fun k k' m m' hm hm' => hinv.roles k k' m m' (hkept hm) (hkept hm')

/-- The invariant of an account. -/
def AccountInv (s : Server) (a : Account) : Prop := Inv s a.mailboxes ∧ Fresh a

/-- **Destroying a mailbox.** -/
theorem inv_destroy (hinv : AccountInv s a) (accessToken : AccessToken) (accountId : UInt32)
    (cuts : List ℕ) (documentId : ℕ) (removeEmails : Bool) :
    AccountInv s (mailboxDestroy s.hash accessToken accountId cuts a documentId removeEmails).1 := by
  unfold mailboxDestroy
  cases hchecks : destroyChecks documentId removeEmails a with
  | error e => exact hinv
  | ok messageIds =>
  dsimp only
  cases hbatch : destroyBatch accessToken accountId documentId removeEmails (a.archives messageIds)
      a.mailboxes[documentId]? with
  | error e => exact hinv
  | ok batch =>
    have hleaf := (destroyChecks_spec hchecks).1
    have hops := destroyOp_of_batch hbatch
    obtain ⟨k, hk, -⟩ := commitGroups_spec (apply s.hash) cuts batch a
    have hmem : ∀ op ∈ (batch.take k).flatten, DestroyOp documentId op := by
      intro op hop
      obtain ⟨group, hgroup, hop⟩ := mem_flatten.mp hop
      exact hops group (mem_of_mem_take hgroup) op hop
    -- the mailbox goes, or nothing of the mailboxes changes
    have hwritten : ∀ (ops : List Op) (b b' : Account), (∀ op ∈ ops, DestroyOp documentId op) →
        (b.mailboxes = a.mailboxes ∨ b.mailboxes = a.mailboxes.erase documentId) →
        b.nextMailboxId = a.nextMailboxId → applyAll (apply s.hash) ops b = some b' →
        (b'.mailboxes = a.mailboxes ∨ b'.mailboxes = a.mailboxes.erase documentId) ∧
          b'.nextMailboxId = a.nextMailboxId := by
      intro ops
      induction ops with
      | nil =>
        rintro b b' - hb hnext h
        obtain rfl := some.inj h
        exact ⟨hb, hnext⟩
      | cons op ops ih =>
        intro b b' hmem hb hnext h
        have hrest := fun op' hop' => hmem op' (mem_cons_of_mem _ hop')
        rw [applyAll] at h
        rcases hmem op mem_cons_self with ⟨id, current, changes, rfl⟩ | ⟨m, rfl⟩
        · rw [apply] at h
          cases hput : putArchive s.hash.message b.messages id current changes with
          | none => rw [hput] at h; cases h
          | some messages =>
            rw [hput] at h
            exact ih { b with messages := messages } b' hrest hb hnext h
        · rw [apply] at h
          cases hput : putArchive s.hash.mailbox b.mailboxes documentId (some m) none with
          | none => rw [hput] at h; cases h
          | some mailboxes =>
            rw [hput] at h
            refine ih { b with mailboxes := mailboxes } b' hrest ?_ hnext h
            obtain ⟨stored, hstored, -⟩ := putArchive_current hput
            unfold putArchive at hput
            split_ifs at hput
            obtain rfl := some.inj hput
            rcases hb with hb | hb
            · exact .inr (congrArg (·.erase documentId) hb)
            · rw [hb, HashMap.getElem?_erase, if_pos rfl] at hstored
              cases hstored
    obtain ⟨hboxes, hnext⟩ := hwritten _ _ _ hmem (.inl rfl) rfl hk
    obtain ⟨hinv, hfresh⟩ := hinv
    rcases hboxes with hb | hb
    · refine ⟨by rw [hb]; exact hinv, fun id hid => ?_⟩
      rw [hb] at hid
      rw [hnext]
      exact hfresh id hid
    · refine ⟨by rw [hb]; exact inv_erase hinv hleaf, fun id hid => ?_⟩
      rw [hb, Stored, HashMap.getElem?_erase] at hid
      rw [hnext]
      split_ifs at hid
      · exact absurd rfl hid
      · exact hfresh id hid

theorem inv_destroyEach (c : Circumstances) (accountId : UInt32) (accessToken : AccessToken) (removeEmails : Bool) :
    ∀ (ids : List Id) {a : Account} (response : SetResponse), AccountInv s a →
      AccountInv s (destroyEach s c accountId accessToken removeEmails ids a response).1
  | [], _, _, h => h
  | id :: ids, _, _, h => inv_destroyEach c accountId accessToken removeEmails ids _
      (inv_destroy h accessToken accountId c.destroyCuts id.documentId.toNat removeEmails)

/-! ## Requests -/

theorem stored_of_created :
    (Stored mailboxes id ∨ id ∈ created.map Prod.fst) → Stored (withCreated mailboxes created) id := by
  induction created using List.reverseRecOn with
  | nil => rintro (h | h); exacts [h, absurd h not_mem_nil]
  | append_singleton created c ih =>
    rw [withCreated_concat, stored_put, map_append, mem_append]
    rintro (h | h | h)
    · exact .inr (ih (.inl h))
    · exact .inr (ih (.inr h))
    · exact .inl (mem_singleton.mp h)

/-- A request, with who makes it and the circumstances. -/
structure Action where
  accessToken : AccessToken
  circumstances : Circumstances
  request : SetRequest

def step (s : Server) (a : Account) (x : Action) : Option Account :=
  some (mailboxSet s a x.accessToken x.circumstances x.request).1

/-- What the checks of a request leave out: its creates against each other, its updates against each other, and what a
move brings along. -/
structure RequestFine (s : Server) (a : Account) (x : Action) : Prop where
  creates : EachAfter (CreateFine s a) [] (creates s a x.accessToken x.request).2.2
  updates :
    let created := Mailbox.creates s a x.accessToken x.request
    let b := (commitCreates s a x.circumstances created.2.1 created.2.2).1
    EachAfter (UpdateFine s b) [] (updateEach s b x.request.update created.1 []).2

theorem inv_commitCreates (hinv : AccountInv s a) (accessToken : AccessToken) (request : SetRequest)
    (c : Circumstances) {nextId : ℕ} {batch : List (ℕ × Mailbox)}
    (hcreates : creates s a accessToken request = (ctx, nextId, batch))
    (hfine : EachAfter (CreateFine s a) [] batch) :
    AccountInv s (commitCreates s a c nextId batch).1 ∧ ((commitCreates s a c nextId batch).2 = true →
      ∀ p ∈ ctx.mailboxIds, Stored (commitCreates s a c nextId batch).1.mailboxes p) := by
  obtain ⟨hinv, hfresh⟩ := hinv
  have hstart : ∀ p ∈ (SetContext.start a accessToken request).mailboxIds,
      Stored a.mailboxes p ∨ p ∈ ([] : List (ℕ × Mailbox)).map Prod.fst := by
    intro p hp
    obtain ⟨⟨id, m⟩, he, rfl⟩ := List.mem_map.mp hp
    exact .inl (stored_iff.2 ⟨m, HashMap.mem_toList.mp he⟩)
  have hnone : EachAfter (Accepted s a) [] [] := trivial
  have hzero : a.nextMailboxId = a.nextMailboxId + ([] : List (ℕ × Mailbox)).length := rfl
  have hspec := createEach_spec hinv request.create hzero hnone hstart
  rw [show createEach s a request.create (SetContext.start a accessToken request) a.nextMailboxId [] =
    (ctx, nextId, batch) from hcreates] at hspec
  dsimp only at hspec
  obtain ⟨hacc, hnext, hctx⟩ := hspec
  obtain ⟨k, hk, hall⟩ := commitGroups_spec (apply s.hash) c.createCuts
    (batch.map fun b => mailboxOps b.1 none b.2) { a with nextMailboxId := nextId }
  rw [← map_take] at hk hall
  have hids : ∀ e ∈ ([] : List (ℕ × Mailbox)), a.nextMailboxId ≤ e.1 ∧ e.1 < a.nextMailboxId + 0 :=
    fun _ h => by cases h
  obtain ⟨hinv', hboxes, hnext'⟩ := inv_creates (b := { a with nextMailboxId := nextId }) hinv hfresh hids
    (hacc.take k) (hfine.take k) rfl hinv hk
  have hcommit : commitCreates s a c nextId batch = commitGroups (apply s.hash) c.createCuts
    (batch.map fun b => mailboxOps b.1 none b.2) { a with nextMailboxId := nextId } := rfl
  rw [hcommit]
  refine ⟨⟨hinv', fun id hid => ?_⟩, fun hok p hp => ?_⟩
  · rw [hnext']
    obtain ⟨m, hm⟩ := stored_iff.1 hid
    rw [hboxes] at hm
    rw [hnext]
    rcases mem_of_withCreated hm with hm | hm
    · exact (hfresh id (stored_iff.2 ⟨m, hm⟩)).trans_le (Nat.le_add_right _ _)
    · exact (ids_of_accepted hacc hids (id, m) (mem_of_mem_take hm)).2
  · have hfull : batch.take k = batch := by
      have hlength := congrArg List.length (hall hok)
      rw [length_map, length_map] at hlength
      exact (take_sublist k batch).eq_of_length hlength
    rw [hboxes, hfull]
    exact stored_of_created (hctx p hp)

theorem inv_commitUpdates (hinv : AccountInv s a) (c : Circumstances) {batch : List Update}
    (hacc : ∀ u ∈ batch, u.Accepted s a) (hfine : EachAfter (UpdateFine s a) [] batch) :
    AccountInv s (commitUpdates s a c batch).1 := by
  obtain ⟨hinv, hfresh⟩ := hinv
  obtain ⟨k, hk, -⟩ := commitGroups_spec (apply s.hash) c.updateCuts
    (batch.map fun u => mailboxOps u.documentId (some u.current) u.changes) a
  rw [← map_take] at hk
  have hacc' : ∀ u ∈ batch.take k, u.Accepted s a := fun u hu => hacc u (mem_of_mem_take hu)
  have hnone : ∀ u ∈ ([] : List Update), u.Accepted s a := fun _ h => by cases h
  obtain ⟨hinv', hboxes, hnext⟩ := inv_updates hinv hnone hacc' (hfine.take k) rfl hinv hk
  have hcommit : commitUpdates s a c batch = commitGroups (apply s.hash) c.updateCuts
    (batch.map fun u => mailboxOps u.documentId (some u.current) u.changes) a := rfl
  rw [hcommit]
  refine ⟨hinv', fun id hid => ?_⟩
  rw [hnext]
  obtain ⟨m, hm⟩ := stored_iff.1 hid
  rw [hboxes] at hm
  rcases mem_of_withUpdated hm with hm | ⟨u, hu, rfl, -⟩
  · exact hfresh id (stored_iff.2 ⟨m, hm⟩)
  · exact hfresh _ (stored_iff.2 ⟨_, (hacc' u (by simpa using hu)).current⟩)

/-- **A request.** -/
theorem inv_request {b : Account} {x : Action} (hinv : AccountInv s a) (hfine : RequestFine s a x)
    (h : step s a x = some b) : AccountInv s b := by
  obtain rfl := some.inj h
  obtain ⟨accessToken, c, request⟩ := x
  obtain ⟨hcreates, hupdates⟩ := hfine
  obtain ⟨hinv', hids⟩ := inv_commitCreates hinv accessToken request c rfl hcreates
  unfold mailboxSet
  by_cases hlarge : s.setMaxObjects < request.numObjects
  · rw [if_pos hlarge]
    exact hinv
  rw [if_neg hlarge]
  by_cases hstate : c.stateMatches
  · rw [if_neg (not_not.mpr hstate)]
    by_cases hok : (commitCreates s a c (creates s a accessToken request).2.1
        (creates s a accessToken request).2.2).2
    · rw [if_neg (not_not.mpr hok)]
      exact inv_destroyEach _ _ _ _ _ _ (inv_commitUpdates hinv' c
        (updateEach_spec hinv'.1 request.update (hids hok) (by simp)) hupdates)
    · rw [if_pos hok]
      exact hinv'
  · rw [if_pos hstate]
    exact hinv

/-- **The mailboxes are a forest in every state of every run of requests** that meet the conditions. -/
theorem tidy_run {a : Account} {requests : List Action} (hinv : AccountInv s a)
    (hfine : Run.Each (step s) (RequestFine s) a requests) :
    Run.Always (step s) (fun a => Tidy s a.mailboxes) a requests :=
  (Run.always_of_each (fun _ _ _ hinv hfine h => inv_request hinv hfine h) hinv hfine).mono fun _ h => h.1.toTidy

/-! ## Two requests -/

/-- A server for names without blanks and in lower case. -/
def Server.plain : Server where
  setMaxObjects := 500
  mailboxNameMaxLen := 255
  mailboxMaxDepth := 10
  maxMailboxes := 250
  trim name := name
  toLowercase name := name
  hash := ⟨fun m => .ofNat (m.name.utf8ByteSize + m.parentId), fun _ => 0⟩
  aclSet _ := .ok []
  aclPatch acls _ _ := .ok acls
  aclValidate _ := none

/-- An account without mailboxes. -/
def noMailboxes : Account := ⟨∅, ∅, 0⟩

theorem accountInv_noMailboxes : AccountInv s noMailboxes := by
  have hnone : ∀ id, noMailboxes.mailboxes[id]? = none := fun _ => Std.TreeMap.getElem?_emptyc
  have hstored : ∀ id, ¬ Stored noMailboxes.mailboxes id := fun id h => h (hnone id)
  refine ⟨inv_mk ⟨fun id _ h => absurd h (hstored id), fun id h => absurd h (hstored id)⟩
    (fun id _ h => absurd h (hstored id)) ?_ ?_, fun id h => absurd h (hstored id)⟩
  all_goals
    intro id _ m _ hm
    cases hm

/-- The owner makes a request, which goes to the store in one piece. -/
def ownRequest (request : SetRequest) : Action := ⟨⟨0, [], [], false⟩, ⟨true, [], [], []⟩, request⟩

/-- The mailboxes `a` and `b` at the top. -/
def createTwo : SetRequest :=
  ⟨⟨0⟩, 2, [("a", some [(.property .name, .str "a")]), ("b", some [(.property .name, .str "b")])], [], [], none⟩

/-- Each of the two below the other. -/
def moveBoth : SetRequest :=
  ⟨⟨0⟩, 2, [], [(⟨0⟩, some [(.property .parentId, .element (.id ⟨1⟩))]),
    (⟨1⟩, some [(.property .parentId, .element (.id ⟨0⟩))])], [], none⟩

theorem tidy_createTwo : Run.Always (step .plain) (fun a => Tidy .plain a.mailboxes) noMailboxes
    [ownRequest createTwo] := by
  refine tidy_run accountInv_noMailboxes fun _ _ => ⟨⟨?_, ?_⟩, trivial⟩
  · refine ⟨⟨(fun _ h => by cases h), (fun _ h => by cases h), fun _ h => by cases h⟩, ⟨?_, ?_, ?_⟩, trivial⟩
    · simp [SameName, Server.plain, Mailbox.new]
    · simp [SameRole, Mailbox.new]
    · simp [parentOf, Mailbox.new]
  · trivial

/-- Two moves of one request that are each fine by themselves make a cycle. -/
theorem moveBoth_cycle : ¬ Run.Always (step .plain) (fun a => Tidy .plain a.mailboxes) noMailboxes
    [ownRequest createTwo, ownRequest moveBoth] := by
  intro h
  have htidy := ((h.2 _ rfl).2 _ rfl).first
  refine htidy.acyclic 0 1 (stored_iff.2 ⟨_, rfl⟩) ?_
  exact Within.step Within.self

end MailServer.Jmap.Mailbox
