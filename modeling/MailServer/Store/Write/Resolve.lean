import MailServer.Store.Write.ChangeLog

/-!
# Resolving change ids (`store/src/write/mod.rs`, `store/src/backend/rocksdb/write.rs`)

A batch with changes gets a change id for every account that has some.  The write loop looks one up
for every account that the operations name.

* `Txn.Holds`: no assertion and no other value operation of a run fails.
* `commit_ok_iff`: when a batch of which this holds is committed.
* `Logged`, `Resolvable`: the same for the calls that built it.
* `commit_built_iff`: a built batch, as a whole and piece by piece.
-/

namespace MailServer.Store.Write

open MailServer.Types MailServer.Utils List Operation BatchBuilder

section

variable {σ : Type*}
  (write : AssignedIds → Context → Operation → σ → Except Trc.Error (Option Int × σ))

/-- No keyed operation of a run fails: its assertions hold, and so do its other value operations. -/
def Txn.Holds (hasChanges : Bool) : Txn σ → List Operation → Prop
  | _, [] => True
  | t, op :: ops =>
    match t.step write hasChanges op with
    | .ok t' => Holds hasChanges t' ops
    | .error _ => op.isKeyed = false

/-- The write loop at the start of a batch. -/
def Txn.start (s : StoreState σ) (batch : Batch) : Txn σ :=
  let (result, s) := batch.changes.keys.foldl assignChangeId (default, s)
  ⟨.start, 0, result, s⟩

/-- The assertions of a batch hold where it is committed. -/
def Holds (s : StoreState σ) (batch : Batch) : Prop :=
  (Txn.start s batch).Holds write (!batch.changes.isEmpty) batch.ops

variable {write}

variable {hasChanges : Bool}

theorem Txn.step_ok_iff {t : Txn σ} {op : Operation} (h : op.isKeyed = false) :
    (∃ t', t.step write hasChanges op = .ok t') ↔
      (hasChanges = true → ∀ a, op = .accountId a → ∃ id, t.result.lastChangeId a = .ok id) := by
  cases op
  case accountId a =>
    simp only [Txn.step, AssignedIds.setCurrentChangeId]
    cases hasChanges
    · simp
    · rcases hl : t.result.lastChangeId a with e | id
      · simp [hl]
      · simp [hl]
  case collection | documentId | log => simp [Txn.step]
  all_goals exact Bool.noConfusion h

theorem Txn.step_lastChangeId {t t' : Txn σ} {op : Operation}
    (h : t.step write hasChanges op = .ok t') (a : UInt32) :
    t'.result.lastChangeId a = t.result.lastChangeId a := by
  cases op
  case accountId k =>
    simp only [Txn.step, AssignedIds.setCurrentChangeId] at h
    split_ifs at h
    · rcases hl : t.result.lastChangeId k with e | id <;> rw [hl] at h
      · cases h
      · obtain rfl := Except.ok.inj h
        rfl
    · obtain rfl := Except.ok.inj h
      rfl
  case collection | documentId | log =>
    obtain rfl := Except.ok.inj h
    rfl
  all_goals
    simp only [Txn.step] at h
    split at h
    · obtain rfl := Except.ok.inj h
      exact lastChangeId_pushCounterId _ _ a
    · cases h

theorem Txn.run_ok_iff {ops : List Operation} : ∀ {t : Txn σ},
    t.Holds write hasChanges ops →
      ((∃ t', t.run write hasChanges ops = .ok t') ↔
        (hasChanges = true →
          ∀ a, accountId a ∈ ops → ∃ id, t.result.lastChangeId a = .ok id)) := by
  induction ops with
  | nil => simp [Txn.run]
  | cons op ops ih =>
    intro t h
    simp only [Txn.Holds] at h
    simp only [Txn.run]
    rcases hstep : t.step write hasChanges op with e | t₁
    · rw [hstep] at h
      have hnot : ¬ ∃ t', t.step write hasChanges op = .ok t' := by simp [hstep]
      rw [Txn.step_ok_iff h] at hnot
      refine iff_of_false (by simp) fun hall => hnot fun hc a ha => ?_
      exact hall hc a (ha ▸ mem_cons_self)
    · rw [hstep] at h
      have hlast := Txn.step_lastChangeId hstep
      have hrest := ih h
      simp only [hlast] at hrest
      refine hrest.trans (forall_congr' fun hc => forall_congr' fun a => ?_)
      rw [mem_cons]
      refine ⟨fun hmem ha => ?_, fun hall ha => hall (Or.inr ha)⟩
      rcases ha with ha | ha
      · have hkeyed : op.isKeyed = false := by rw [← ha]; rfl
        exact (Txn.step_ok_iff hkeyed).mp ⟨t₁, hstep⟩ hc a ha.symm
      · exact hmem ha

theorem commit_eq (s : StoreState σ) (batch : Batch) :
    commit write s batch = (Txn.run write (!batch.changes.isEmpty) (Txn.start s batch) batch.ops).map
      fun t => (t.result, t.store) := by
  unfold commit Txn.start
  dsimp only
  rcases Txn.run write (!batch.changes.isEmpty) _ batch.ops with e | t <;> rfl

/-- **A batch** whose assertions hold is committed exactly when it has no changes, or every account
that it names has some. -/
theorem commit_ok_iff {s : StoreState σ} {batch : Batch} (h : Holds write s batch) :
    (∃ r, commit write s batch = .ok r) ↔
      (batch.changes.isEmpty = false →
        ∀ a, accountId a ∈ batch.ops → a ∈ batch.changes.keys) := by
  obtain ⟨hlast, hmem, -, -⟩ := assignChangeIds_spec batch.changes.keys s batch.changes.nodup
  have hid : ∀ a, (∃ id, (Txn.start s batch).result.lastChangeId a = .ok id) ↔
      a ∈ batch.changes.keys :=
    fun a => ⟨fun ⟨id, hid⟩ => hmem a id hid, fun ha => ⟨_, hlast a ha⟩⟩
  have hrun := Txn.run_ok_iff h
  simp only [hid, Bool.not_eq_true'] at hrun
  rw [← hrun, commit_eq]
  rcases Txn.run write (!batch.changes.isEmpty) (Txn.start s batch) batch.ops with e | t
  · simp [Except.map]
  · simp [Except.map]

end

/-! ## The accounts a builder names -/

section

variable (o : HashOrder UInt32) (p : HashOrder UInt64)

/-- The operations of a builder name the accounts of the `with_account_id` calls, its cached account and
the accounts of its log among them. -/
structure Named (b : BatchBuilder) (calls : List Call) : Prop where
  named : ∀ a, accountId a ∈ b.ops ↔ Call.withAccountId a ∈ calls
  current : ∀ a, b.currentAccountId = some a → accountId a ∈ b.ops
  changes : ∀ a ∈ b.changes.keys, accountId a ∈ b.ops

variable {b : BatchBuilder} {c : Call} {a : UInt32} {calls : List Call}

theorem accountId_mem_emits :
    accountId a ∈ b.emits c ↔ c = .withAccountId a ∧ b.currentAccountId ≠ some a := by
  have hkeyed : accountId a ∉ c.keyed := fun h => Bool.noConfusion (Call.isKeyed_of_mem h)
  cases c
  case withAccountId k =>
    simp only [emits]
    split_ifs with h
    · simp only [not_mem_nil, false_iff, Call.withAccountId.injEq]
      rintro ⟨rfl, hne⟩
      exact hne h
    · simp only [mem_singleton, accountId.injEq, Call.withAccountId.injEq]
      exact ⟨fun ha => ⟨ha.symm, ha ▸ h⟩, fun ha => ha.1.symm⟩
  all_goals
    simp only [reduceCtorEq, false_and, iff_false]
    first | exact hkeyed | simp [emits]

theorem changes_call (b : BatchBuilder) (hc : c ≠ .commitPoint)
    (ha : a ∈ (b.call o p c).changes.keys) : a ∈ b.changes.keys ∨ b.currentAccountId = some a := by
  have hwith (b : BatchBuilder) (f : ChangeLogBuilder → ChangeLogBuilder)
      (h : a ∈ (b.logWith f).changes.keys) : a ∈ b.changes.keys ∨ b.currentAccountId = some a := by
    unfold logWith at h
    rcases hk : b.currentAccountId with _ | k <;> rw [hk] at h
    · exact Or.inl h
    · rcases VecMap.mem_keys_alter.mp h with rfl | h
      · exact Or.inr rfl
      · exact Or.inl h
  have hdoc (f : UInt32 → ChangeLogBuilder → ChangeLogBuilder)
      (h : a ∈ (b.logDocument f).changes.keys) : a ∈ b.changes.keys ∨ b.currentAccountId = some a := by
    unfold logDocument at h
    split at h
    · exact hwith b _ h
    · exact Or.inl h
  cases c
  case commitPoint => exact absurd rfl hc
  case logItemInsert | logItemUpdate | logItemDelete | logContainerInsert | logContainerUpdate
      | logContainerDelete => exact hdoc _ ha
  case logContainerPropertyChange => exact hwith b _ ha
  case logVanishedItem y i =>
    have ha' : a ∈ (b.logVanishedItem y i).changes.keys := ha
    unfold logVanishedItem at ha'
    split at ha'
    · exact hwith { b with batchSize := b.batchSize + i.serializedSize } _ ha'
    · exact Or.inl ha'
  case withAccountId k =>
    have hsame : (b.withAccountId k).changes = b.changes := by
      unfold withAccountId
      split_ifs <;> rfl
    exact Or.inl (hsame ▸ ha)
  case withCollection y =>
    have hsame : (b.withCollection y).changes = b.changes := by
      unfold withCollection
      split_ifs <;> rfl
    exact Or.inl (hsame ▸ ha)
  all_goals exact Or.inl ha

theorem accountId_mem_serializeChanges (h : accountId a ∈ (b.serializeChanges o p).ops) :
    accountId a ∈ b.ops ∨ a ∈ b.changes.keys := by
  have hlog (r : UInt32 × ChangeLogBuilder) :
      accountId a ∉ (accountLog o p r).map logOperation := by
    simp [logOperation]
  have haccounts (l : List (UInt32 × ChangeLogBuilder)) : ∀ b : BatchBuilder,
      accountId a ∈ (l.foldl (serializeAccount o p) b).ops →
        accountId a ∈ b.ops ∨ a ∈ l.map Prod.fst := by
    induction l with
    | nil => exact fun b h => Or.inl h
    | cons r l ih =>
      intro b h
      rcases ih _ h with h | h
      · rw [ops_serializeAccount, mem_append, mem_append] at h
        rcases h with h | h | h
        · exact Or.inl h
        · obtain ⟨hr, -⟩ := accountId_mem_emits.1 h
          exact Or.inr (by simp [Call.withAccountId.inj hr])
        · exact absurd h (hlog r)
      · exact Or.inr (mem_cons_of_mem _ h)
  rcases serializeChanges_eq o p b with hser | ⟨-, hser⟩
  · rw [hser] at h
    exact haccounts _ { b with changes := .empty } h
  · rw [hser] at h
    exact Or.inl h

theorem Named.call (h : Named b calls)
    (hc : c ≠ .commitPoint) : Named (b.call o p c) (calls ++ [c]) := by
  obtain ⟨hops, -, hcached⟩ := b.call_spec o p hc
  have hacc : (b.call o p c).currentAccountId = (b.cached.step c).accountId :=
    congrArg Declaration.accountId hcached
  have hmono : ∀ a, accountId a ∈ b.ops → accountId a ∈ (b.call o p c).ops := by
    intro a ha
    rw [hops]
    exact mem_append_left _ ha
  have hnamed : ∀ a, accountId a ∈ (b.call o p c).ops ↔
      Call.withAccountId a ∈ calls ++ [c] := by
    intro a
    rw [hops, mem_append, mem_append, h.named, accountId_mem_emits, mem_singleton]
    constructor
    · rintro (ha | ⟨ha, -⟩)
      · exact Or.inl ha
      · exact Or.inr ha.symm
    · rintro (ha | ha)
      · exact Or.inl ha
      · by_cases hcur : b.currentAccountId = some a
        · exact Or.inl ((h.named a).mp (h.current a hcur))
        · exact Or.inr ⟨ha.symm, hcur⟩
  refine ⟨hnamed, ?_, ?_⟩
  · intro a ha
    rw [hacc] at ha
    cases c
    case withAccountId k =>
      obtain rfl : k = a := Option.some.inj ha
      exact (hnamed k).mpr (by simp)
    all_goals exact hmono a (h.current a ha)
  · intro a ha
    rcases changes_call o p b hc ha with ha | ha
    · exact hmono a (h.changes a ha)
    · exact hmono a (h.current a ha)

theorem Named.serializeChanges (h : Named b calls) : Named (b.serializeChanges o p) calls := by
  obtain ⟨l, hl, -⟩ := (BatchBuilder.Quiet.serializeChanges o p b).ops
  have hmono : ∀ a, accountId a ∈ b.ops →
      accountId a ∈ (b.serializeChanges o p).ops := by
    intro a ha
    rw [hl]
    exact mem_append_left _ ha
  refine ⟨fun a => ?_, ?_, ?_⟩
  · rw [← h.named]
    refine ⟨fun ha => ?_, hmono a⟩
    exact (accountId_mem_serializeChanges o p ha).elim id (h.changes a)
  · intro a ha
    rw [currentAccountId_serializeChanges] at ha
    rcases hlast : b.changes.keys.getLast? with _ | k <;> rw [hlast] at ha
    · exact hmono a (h.current a ha)
    · obtain rfl : k = a := Option.some.inj ha
      exact hmono k (h.changes k (mem_of_getLast? hlast))
  · intro a ha
    rw [changes_serializeChanges] at ha
    exact absurd ha not_mem_nil

theorem Named.commitPoint (h : Named b calls) : Named (b.commitPoint o p) calls := by
  unfold BatchBuilder.commitPoint
  split_ifs
  · have hs := h.serializeChanges o p
    refine ⟨fun a => ?_, fun a ha => ?_, fun a ha => ?_⟩
    · rw [mem_append, ← hs.named]
      refine ⟨fun ha => ?_, Or.inl⟩
      rcases ha with ha | ha
      · exact ha
      · have hcur : (b.serializeChanges o p).currentAccountId = some a := by
          simpa [BatchBuilder.contextOps] using ha
        exact hs.current a hcur
    · exact mem_append_left _ (hs.current a ha)
    · exact mem_append_left _ (hs.changes a ha)
  · exact h

theorem Named.build (calls : List Call) : Named (build o p calls) calls := by
  induction calls using List.reverseRecOn with
  | nil =>
    refine ⟨fun a => ?_, fun a ha => ?_, fun a ha => ?_⟩
    · exact iff_of_false not_mem_nil not_mem_nil
    · cases ha
    · exact absurd ha not_mem_nil
  | append_singleton calls c ih =>
    rw [build_concat]
    by_cases hc : c = .commitPoint
    · subst hc
      have hsame : ∀ a, Call.withAccountId a ∈ calls ++ [.commitPoint] ↔ Call.withAccountId a ∈ calls := by
        simp
      obtain ⟨hnamed, hcurrent, hchanges⟩ := ih.commitPoint o p
      exact ⟨fun a => (hnamed a).trans (hsame a).symm, hcurrent, hchanges⟩
    · exact ih.call o p hc

/-! ## The accounts with changes -/

/-- An account has announced changes, or is notified. -/
def Logged (calls : List Call) (a : UInt32) : Prop :=
  (∃ l ∈ stretches o p calls, ∃ r ∈ l, r.1 = a) ∨ ∃ n v, Call.logShareNotification n a v ∈ calls

/-- Nothing is logged, or every account the calls name has something logged. -/
def Resolvable (calls : List Call) : Prop :=
  (∀ a, ¬ Logged o p calls a) ∨ ∀ a, Call.withAccountId a ∈ calls → Logged o p calls a

theorem exists_held {l : List Record} :
    (∃ x ch, held none (recordsOf a x l) = some ch) ↔ ∃ r ∈ l, r.1 = a := by
  have hsome : ∀ x, (∃ ch, held none (recordsOf a x l) = some ch) ↔ recordsOf a x l ≠ [] := by
    intro x
    rw [held_none]
    split_ifs with h <;> simp [h]
  simp only [hsome]
  constructor
  · rintro ⟨x, hne⟩
    obtain ⟨c, hc⟩ := exists_mem_of_ne_nil _ hne
    obtain ⟨r, hr, hrc⟩ := mem_filterMap.mp hc
    split_ifs at hrc with h
    exact ⟨r, hr, h.1⟩
  · rintro ⟨r, hr, rfl⟩
    refine ⟨r.2.1, ne_nil_of_mem (a := r.2.2) (mem_filterMap.mpr ⟨r, hr, ?_⟩)⟩
    simp

theorem keys_journal (calls : List Call) (a : UInt32) :
    a ∈ (journal o p calls).builder.changedCollections.keys ↔
      (∃ l ∈ (journal o p calls).done, ∃ r ∈ l, r.1 = a) ∨
        ∃ n v, Call.logShareNotification n a v ∈ calls := by
  induction calls using List.reverseRecOn with
  | nil => simp [journal, new, VecMap.keys, VecMap.empty]
  | append_singleton calls c ih =>
    have hlogs := Logs.journal o p calls
    rw [journal_concat]
    by_cases hc : c = .commitPoint
    · subst hc
      have hshared : (∃ n v, Call.logShareNotification n a v ∈ calls ++ [.commitPoint]) ↔
          ∃ n v, Call.logShareNotification n a v ∈ calls := by
        simp
      rw [hshared]
      show a ∈ (if (journal o p calls).builder.isLargeBatch then _
        else journal o p calls : Journal).builder.changedCollections.keys ↔ (∃ l ∈
          (if (journal o p calls).builder.isLargeBatch then _ else journal o p calls : Journal).done,
          _) ∨ _
      split_ifs with hb
      · have hcommit : ((journal o p calls).builder.commitPoint o p).changedCollections =
            ((journal o p calls).builder.serializeChanges o p).changedCollections := by
          unfold commitPoint
          rw [if_pos hb]
        have hcur := exists_held (a := a) (l := (journal o p calls).cur)
        simp only [← hlogs.opened.pending] at hcur
        rw [hcommit, keys_serializeChanges, ih, hcur]
        simp only [mem_append, mem_singleton, or_and_right, exists_or, exists_eq_left]
        exact or_right_comm
      · exact ih
    · have hstep : (journal o p calls).step o p c = ⟨(journal o p calls).builder.call o p c,
          (journal o p calls).done, (journal o p calls).cur ++ c.announces (journal o p calls).builder⟩ := by
        cases c
        case commitPoint => exact absurd rfl hc
        all_goals rfl
      rw [hstep, keys_call_iff o p _ hc, ih, or_assoc]
      simp only [mem_append, mem_singleton, exists_or, eq_comm]

theorem keys_built (calls : List Call) (a : UInt32) :
    a ∈ ((build o p calls).serializeChanges o p).changedCollections.keys ↔ Logged o p calls a := by
  have hcur := exists_held (a := a) (l := (journal o p calls).cur)
  simp only [← (Logs.journal o p calls).opened.pending] at hcur
  rw [← builder_journal, keys_serializeChanges, keys_journal, hcur, Logged, stretches]
  simp only [mem_append, mem_singleton, or_and_right, exists_or, exists_eq_left]
  exact or_right_comm

/-- **A built batch** whose assertions hold is committed exactly when its calls are resolvable.  Cut into
pieces, every piece is committed when they are, and otherwise some piece never is. -/
theorem commit_built_iff {σ : Type*}
    (write : AssignedIds → Context → Operation → σ → Except Trc.Error (Option Int × σ))
    (calls : List Call) :
    (∀ s, Holds write s ((build o p calls).buildAll o p) →
      ((∃ r, commit write s ((build o p calls).buildAll o p) = .ok r) ↔ Resolvable o p calls)) ∧
    (Resolvable o p calls → ∀ b ∈ (build o p calls).batches o p, ∀ s, Holds write s b →
      ∃ r, commit write s b = .ok r) ∧
    (¬ Resolvable o p calls → ∃ b ∈ (build o p calls).batches o p, ∀ s, Holds write s b →
      ¬ ∃ r, commit write s b = .ok r) := by
  have hnamed := (Named.build o p calls).serializeChanges o p
  have hempty : ((build o p calls).serializeChanges o p).changedCollections.isEmpty = false ↔
      ∃ a, Logged o p calls a := by
    simp only [← keys_built]
    rw [VecMap.isEmpty, isEmpty_eq_false_iff_exists_mem]
    constructor
    · rintro ⟨r, hr⟩
      exact ⟨r.1, mem_map_of_mem hr⟩
    · rintro ⟨a, ha⟩
      obtain ⟨r, hr, -⟩ := mem_map.mp ha
      exact ⟨r, hr⟩
  have hmem : ∀ a, Call.withAccountId a ∈ calls ↔
      ∃ b ∈ (build o p calls).batches o p, accountId a ∈ b.ops := by
    intro a
    rw [← hnamed.named]
    have hops := ops_buildAll (o := o) (p := p) calls
    show accountId a ∈ ((build o p calls).buildAll o p).ops ↔ _
    rw [hops]
    simp only [mem_flatten, mem_map, exists_exists_and_eq_and]
  have hpiece : ∀ b ∈ (build o p calls).batches o p, ∀ s, Holds write s b →
      ((∃ r, commit write s b = .ok r) ↔ ((∃ a, Logged o p calls a) →
        ∀ a, accountId a ∈ b.ops → Logged o p calls a)) := by
    intro b hb s hs
    rw [commit_ok_iff hs, changes_of_mem_batches hb, hempty]
    simp [keys_built]
  refine ⟨fun s hs => ?_, fun hr b hb s hs => ?_, fun hr => ?_⟩
  · rw [commit_ok_iff hs]
    show (((build o p calls).serializeChanges o p).changedCollections.isEmpty = false → ∀ a,
      accountId a ∈ ((build o p calls).serializeChanges o p).ops →
        a ∈ ((build o p calls).serializeChanges o p).changedCollections.keys) ↔ _
    simp only [hempty, hnamed.named, keys_built, Resolvable]
    rw [← not_exists, imp_iff_not_or]
  · rw [hpiece b hb s hs]
    intro hlogged a ha
    rcases hr with hr | hr
    · exact absurd hlogged.choose_spec (hr _)
    · exact hr a ((hmem a).mpr ⟨b, hb, ha⟩)
  · rw [Resolvable, not_or] at hr
    obtain ⟨hsome, hall⟩ := hr
    obtain ⟨a, hall⟩ := not_forall.mp hall
    obtain ⟨ha, hnot⟩ := Classical.not_imp.mp hall
    obtain ⟨b, hb, hab⟩ := (hmem a).mp ha
    refine ⟨b, hb, fun s hs hok => ?_⟩
    exact hnot ((hpiece b hb s hs).mp hok (by simpa using hsome) a hab)

end

section

/-- One account logs an update, another has a value cleared. -/
def logAndClear : List Call :=
  [.withAccountId 1, .withDocument 7, .logItemUpdate .email none, .withAccountId 2,
    .clear (.property 0)]

theorem commit_built_at : ∃ r, commit writeNothing emptyStore
    ((build .u32 .u64 [.withAccountId 1, .withDocument 7, .logItemUpdate .email none]).buildAll .u32 .u64) =
      .ok r :=
  ((commit_built_iff .u32 .u64 writeNothing
      [.withAccountId 1, .withDocument 7, .logItemUpdate .email none]).1 emptyStore trivial).mpr
    (Or.inr (by
      intro a ha
      obtain rfl : a = 1 := by simpa using ha
      exact Or.inl ⟨_, mem_singleton_self _, (1, .email, .updateItem 7), mem_cons_self, rfl⟩))

/-- Nothing of the batch fails but the change id of account 2. -/
theorem commit_log_and_clear :
    ¬ ∀ (calls : List Call) (s : StoreState Unit),
      Holds writeNothing s ((build .u32 .u64 calls).buildAll .u32 .u64) →
        ∃ r, commit writeNothing s ((build .u32 .u64 calls).buildAll .u32 .u64) = .ok r := by
  intro h
  obtain ⟨r, hr⟩ := h logAndClear emptyStore rfl
  cases hr

end

end MailServer.Store.Write
