import MailServer.Store.Write.ChangeLog

/-!
# Batches that look empty (`BatchBuilder::is_empty`)

* `Tallied`: what the calls say about the counter, the operations and the change log of the builder.
-/

namespace MailServer.Store.Write

open MailServer.Types MailServer.Utils List

/-- Whether an operation changes the store. -/
def Operation.writes : Operation → Bool
  | .value .. | .index .. | .log .. => true
  | _ => false

open Operation

/-- `is_empty`. -/
def BatchBuilder.isEmpty (b : BatchBuilder) : Bool := b.batchOps == 0

namespace Call

/-- Whether `batch_ops` is bumped. -/
def isCounted : Call → Bool
  | .setFnc .. | .mergeFnc .. => false
  | c => !c.keyed.isEmpty

/-- Whether the change log gets a record. -/
def logs (d : Declaration) : Call → Bool
  | .logItemInsert .. | .logItemUpdate .. | .logItemDelete .. | .logContainerInsert _ | .logContainerUpdate _
  | .logContainerDelete _ => d.accountId.isSome && d.documentId.isSome
  | .logContainerPropertyChange .. | .logVanishedItem .. => d.accountId.isSome
  | _ => false

def records (d : Declaration) (c : Call) : Bool := c.keyed.any writes || c.logs d

end Call

section

variable (o : HashOrder UInt32) (p : HashOrder UInt64)

/-- A builder, whether a call has bumped its counter since the batch was last cut, and whether one has recorded
something. -/
structure Tally where
  builder : BatchBuilder
  counted : Bool
  recorded : Bool

def Tally.step (t : Tally) (c : Call) : Tally where
  builder := t.builder.call o p c
  counted := match c with
    | .commitPoint => t.counted && !t.builder.isLargeBatch
    | c => t.counted || c.isCounted
  recorded := t.recorded || c.records t.builder.cached

def tally (calls : List Call) : Tally := calls.foldl (Tally.step o p) ⟨.new, false, false⟩

/-- A batch that answers that it is empty writes nothing. -/
def SkipsNothing (b : BatchBuilder) : Prop :=
  b.isEmpty = true → ∀ op ∈ (b.buildAll o p).ops, op.writes = false

theorem builder_tally (calls : List Call) : (tally o p calls).builder = build o p calls := by
  induction calls using List.reverseRecOn with
  | nil => rfl
  | append_singleton calls c ih =>
    rw [build_concat, ← ih, tally, foldl_concat]
    rfl

variable {b : BatchBuilder} {c : Call} {n r : Bool}

theorem accountLog_log (a : UInt32) (l : ChangeLogBuilder) (x : SyncCollection) (change : LogChange) :
    accountLog o p (a, l.log x change) ≠ [] := by
  have hx : x ∈ (l.log x change).changes.keys := VecMap.mem_keys_alter.mpr (.inl rfl)
  obtain ⟨e, he, -⟩ := mem_map.mp hx
  exact ne_nil_of_mem (mem_append_left _ (mem_map_of_mem he))

theorem accountLog_vanished (a : UInt32) (l : ChangeLogBuilder) (x : VanishedCollection) (item : VanishedItem) :
    accountLog o p (a, l.logVanishedItem x item) ≠ [] := by
  have hx : x ∈ (l.logVanishedItem x item).vanished.keys := VecMap.mem_keys_alter.mpr (.inl rfl)
  obtain ⟨e, he, -⟩ := mem_map.mp hx
  exact ne_nil_of_mem (mem_append_right _ (mem_map_of_mem he))

namespace BatchBuilder

theorem batchOps_call (hc : c ≠ .commitPoint) :
    (b.call o p c).batchOps = 0 ↔ b.batchOps = 0 ∧ c.isCounted = false := by
  by_cases hk : c.keyed = []
  · have hcounted : c.isCounted = false := by
      cases c <;> simp [Call.isCounted, hk]
    rw [(b.call_unkeyed o p hk hc).2, and_iff_left hcounted]
  · cases c
    case setFnc | mergeFnc => exact (and_iff_left rfl).symm
    all_goals first
      | exact absurd rfl hk
      | exact iff_of_false (Nat.succ_ne_zero _) fun h => Bool.noConfusion h.2

/-- The change log gets a record of an account, or stays. -/
def Logged (b b' : BatchBuilder) : Bool → Prop
  | true => ∃ a f, (∀ l, accountLog o p (a, f l) ≠ []) ∧ b'.changes = b.changes.alter a f
  | false => b'.changes = b.changes

theorem logged_logWith (b : BatchBuilder) {f : ChangeLogBuilder → ChangeLogBuilder}
    (hf : ∀ a l, accountLog o p (a, f l) ≠ []) : Logged o p b (b.logWith f) b.currentAccountId.isSome := by
  unfold logWith
  cases b.currentAccountId with
  | none => rfl
  | some a => exact ⟨a, f, hf a, rfl⟩

theorem logged_logDocument (b : BatchBuilder) {f : UInt32 → ChangeLogBuilder → ChangeLogBuilder}
    (hf : ∀ d a l, accountLog o p (a, f d l) ≠ []) :
    Logged o p b (b.logDocument f) (b.currentAccountId.isSome && b.currentDocumentId.isSome) := by
  unfold logDocument
  cases b.currentDocumentId with
  | none =>
    rw [Option.isSome_none, Bool.and_false]
    rfl
  | some d =>
    rw [Option.isSome_some, Bool.and_true]
    exact b.logged_logWith o p (hf d)

theorem logged_call (b : BatchBuilder) (hc : c ≠ .commitPoint) : Logged o p b (b.call o p c) (c.logs b.cached) := by
  cases c
  case commitPoint => exact absurd rfl hc
  case withAccountId a => exact b.changes_withAccountId a
  case withCollection x =>
    simp only [call, withCollection]
    split_ifs <;> rfl
  case logVanishedItem x item =>
    show Logged o p b (b.logVanishedItem x item) b.currentAccountId.isSome
    have h := logged_logWith o p { b with batchSize := b.batchSize + item.serializedSize }
      fun a l => accountLog_vanished o p a l x item
    unfold logVanishedItem
    split
    · exact h
    · next ha =>
      rw [ha]
      rfl
  case logContainerPropertyChange x d => exact b.logged_logWith o p fun a l => accountLog_log o p a l x _
  case logItemInsert x q | logItemUpdate x q | logItemDelete x q | logContainerInsert x | logContainerUpdate x
      | logContainerDelete x => exact b.logged_logDocument o p fun d a l => accountLog_log o p a l x _
  all_goals rfl

theorem any_serializeChanges (h : ∀ x ∈ b.changes.inner, accountLog o p x ≠ []) :
    (b.serializeChanges o p).ops.any writes = (b.ops.any writes || !b.changes.isEmpty) := by
  have hall (l : List (UInt32 × ChangeLogBuilder)) (hl : ∀ x ∈ l, accountLog o p x ≠ []) (b : BatchBuilder) :
      (l.foldl (serializeAccount o p) b).ops.any writes = (b.ops.any writes || !l.isEmpty) := by
    induction l generalizing b with
    | nil => simp
    | cons x l ih =>
      have hx : ((accountLog o p x).map logOperation).any writes = true := by
        obtain ⟨e, he⟩ := exists_mem_of_ne_nil _ (hl x mem_cons_self)
        exact any_eq_true.mpr ⟨_, mem_map_of_mem he, rfl⟩
      rw [foldl_cons, ih fun y hy => hl y (mem_cons_of_mem _ hy), ops_serializeAccount, any_append,
        any_append, hx]
      simp
  rcases serializeChanges_eq o p b with hser | ⟨hnil, hser⟩
  · rw [hser, hall _ h]
    rfl
  · rw [hser, VecMap.isEmpty, hnil]
    simp

end BatchBuilder

/-- What the calls say about the builder. -/
structure Tallied (b : BatchBuilder) (counted recorded : Bool) : Prop where
  count : b.batchOps = 0 ↔ counted = false
  logs : ∀ x ∈ b.changes.inner, accountLog o p x ≠ []
  pending : (b.ops.any writes || !b.changes.isEmpty) = recorded

theorem Tallied.call (h : Tallied o p b n r) (hc : c ≠ .commitPoint) :
    Tallied o p (b.call o p c) (n || c.isCounted) (r || c.records b.cached) := by
  have hops := (b.call_spec o p hc).1
  have hany : (b.emits c).any writes = c.keyed.any writes := by
    cases c
    case withAccountId | withCollection =>
      simp only [BatchBuilder.emits]
      split_ifs <;> rfl
    all_goals rfl
  have hlogged := b.logged_call o p hc
  refine ⟨?_, ?_, ?_⟩
  · rw [BatchBuilder.batchOps_call o p hc, h.count, Bool.or_eq_false_iff]
  all_goals cases hv : c.logs b.cached <;> rw [hv] at hlogged
  · rw [hlogged]
    exact h.logs
  · obtain ⟨a, f, hf, hchanges⟩ := hlogged
    rw [hchanges]
    intro x hx
    have hget := VecMap.get_eq_some.mpr hx
    rw [VecMap.get_alter] at hget
    split_ifs at hget with ha
    · obtain ⟨k, l⟩ := x
      obtain rfl : f _ = l := Option.some.inj hget
      exact hf _
    · exact h.logs x (VecMap.get_eq_some.mp hget)
  · rw [hops, any_append, hany, hlogged, Call.records, hv, Bool.or_false, ← h.pending, Bool.or_right_comm]
  · obtain ⟨a, f, -, hchanges⟩ := hlogged
    have hne : (b.changes.alter a f).isEmpty = false := by
      obtain ⟨e, he, -⟩ := mem_map.mp (VecMap.mem_keys_alter (m := b.changes) (f := f).mpr (.inl rfl))
      exact isEmpty_eq_false_iff.mpr (ne_nil_of_mem he)
    rw [hchanges, hne, Call.records, hv, Bool.or_true, Bool.or_true]
    exact Bool.or_true _

theorem Tallied.commitPoint (h : Tallied o p b n r) :
    Tallied o p (b.commitPoint o p) (n && !b.isLargeBatch) r := by
  unfold BatchBuilder.commitPoint
  split_ifs with hlarge
  · rw [hlarge, Bool.not_true, Bool.and_false]
    have hchanges := changes_serializeChanges o p b
    refine ⟨iff_of_true rfl rfl, ?_, ?_⟩
    · rw [hchanges]
      exact nofun
    · have hcontext : (b.serializeChanges o p).contextOps.any writes = false := by
        unfold BatchBuilder.contextOps
        cases (b.serializeChanges o p).currentAccountId <;> cases (b.serializeChanges o p).currentCollection <;> rfl
      rw [any_append, BatchBuilder.any_serializeChanges o p h.logs, h.pending, hcontext, hchanges]
      exact (Bool.or_false _).trans (Bool.or_false _)
  · rw [Bool.not_eq_true] at hlarge
    rw [hlarge, Bool.not_false, Bool.and_true]
    exact h

theorem tallied (calls : List Call) :
    Tallied o p (build o p calls) (tally o p calls).counted (tally o p calls).recorded := by
  rw [← builder_tally]
  induction calls using List.reverseRecOn with
  | nil => exact ⟨iff_of_true rfl rfl, nofun, rfl⟩
  | append_singleton calls c ih =>
    rw [tally, foldl_concat]
    by_cases hc : c = .commitPoint
    · subst hc
      show Tallied o p _ _ (_ || false)
      rw [Bool.or_false]
      exact ih.commitPoint o p
    · have hcall := ih.call o p hc
      cases c
      case commitPoint => exact absurd rfl hc
      all_goals exact hcall

/-- **A batch that answers that it is empty writes nothing** after the calls of which one has bumped the counter since
the batch was last cut, and after those that record nothing. -/
theorem skipsNothing_iff (calls : List Call) :
    SkipsNothing o p (build o p calls) ↔ (tally o p calls).counted = true ∨ (tally o p calls).recorded = false := by
  have h := tallied o p calls
  have hany : (∀ op ∈ ((build o p calls).buildAll o p).ops, op.writes = false) ↔ (tally o p calls).recorded = false := by
    rw [← h.pending, ← BatchBuilder.any_serializeChanges o p h.logs, any_eq_false]
    simp only [Bool.not_eq_true]
    rfl
  rw [SkipsNothing, BatchBuilder.isEmpty, beq_iff_eq, h.count, hany, imp_iff_not_or, Bool.not_eq_false]

end

/-- A value from a function, and a change of the log, are skipped. -/
theorem not_skipsNothing :
    ¬ SkipsNothing .u32 .u64 (build .u32 .u64 [.setFnc (.property 0) fun _ => .ok []]) ∧
      ¬ SkipsNothing .u32 .u64 (build .u32 .u64 [.withAccountId 1, .withDocument 7, .logItemDelete .email none]) := by
  refine ⟨fun h => ?_, fun h => ?_⟩
  · exact Bool.noConfusion (h rfl _ mem_cons_self)
  · exact Bool.noConfusion (h rfl (.log (.sync .email) _) (mem_of_getLast? rfl))

end MailServer.Store.Write
