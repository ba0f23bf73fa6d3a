import MailServer.Store.Write.Context

/-!
# The change log of a batch

Between two cuts the builder compacts the changes of every account and collection into one record, and
the write loop stores the record under the change id the piece has for the account.

* `logWrites`: the log entries of a list of operations.
* `commit_logs`: a commit with change ids stores exactly these.
* `logs_kept`: piece by piece, every record survives; as a whole, every record of a collection that is
  logged in one stretch only.
-/

namespace MailServer.Store.Write

open MailServer.Types MailServer.Utils List Option AssignedIds VecMap Function

/-! ## The log entries of a list of operations -/

/-- The log entries of operations, after an account and its change id. -/
def logWrites (ids : UInt32 → ℕ) : UInt32 → ℕ → List Operation → List (LogKey × List UInt8)
  | _, _, [] => []
  | _, _, .accountId a :: ops => logWrites ids a (ids a) ops
  | a, id, .log x v :: ops => (⟨a, x.toU8, id⟩, v) :: logWrites ids a id ops
  | a, id, _ :: ops => logWrites ids a id ops

/-- Entries put one after the other. -/
def putAll (logs : LogKey → Option (List UInt8)) (l : List (LogKey × List UInt8)) :
    LogKey → Option (List UInt8) :=
  l.foldl (fun m e => update m e.1 (some e.2)) logs

theorem putAll_append (logs : LogKey → Option (List UInt8)) (l m : List (LogKey × List UInt8)) :
    putAll logs (l ++ m) = putAll (putAll logs l) m := by
  simp [putAll]

variable {l : List (LogKey × List UInt8)} {ops : List Operation}

theorem putAll_of_notMem {k : LogKey} (h : k ∉ l.map Prod.fst)
    (logs : LogKey → Option (List UInt8)) : putAll logs l k = logs k := by
  induction l generalizing logs with
  | nil => rfl
  | cons e l ih =>
    rw [map_cons, mem_cons, not_or] at h
    show putAll (update logs e.1 (some e.2)) l k = logs k
    rw [ih h.2, update_of_ne h.1]

theorem putAll_of_mem {k : LogKey} {v : List UInt8} (h : (k, v) ∈ l) (hu : ∀ w, (k, w) ∈ l → w = v)
    (logs : LogKey → Option (List UInt8)) : putAll logs l k = some v := by
  induction l using List.reverseRecOn with
  | nil => cases h
  | append_singleton l e ih =>
    rw [putAll_append]
    show update (putAll logs l) e.1 (some e.2) k = some v
    by_cases hk : k = e.1
    · subst hk
      have he : e.2 = v := hu e.2 (by simp)
      rw [update_self, he]
    · rw [update_of_ne hk]
      refine ih ?_ fun w hw => hu w (mem_append_left _ hw)
      rcases mem_append.mp h with h | h
      · exact h
      · obtain rfl := mem_singleton.mp h
        exact absurd rfl hk

section

variable {σ : Type*}
  {write : AssignedIds → Context → Operation → σ → Except Trc.Error (Option Int × σ)}

theorem lastChangeId_pushCounterId (r : AssignedIds) (n : Option Int) (a : UInt32) :
    (r.pushCounterId n).lastChangeId a = r.lastChangeId a := by
  have h : ((n.map AssignedId.counter).toList.filterMap (changeIdOf a)) = [] := by
    cases n <;> rfl
  simp [lastChangeId, pushCounterId, h]

theorem lastChangeId_pushChangeId (r : AssignedIds) (a b : UInt32) (id : ℕ) :
    (r.pushChangeId a id).lastChangeId b = if a = b then .ok id else r.lastChangeId b := by
  simp only [lastChangeId, pushChangeId]
  by_cases h : a = b
  · simp [changeIdOf, h]
  · simp [changeIdOf, h]

theorem Txn.step_logs {t t' : Txn σ} {op : Operation} (ids : UInt32 → ℕ)
    (hids : ∀ a id, t.result.lastChangeId a = .ok id → ids a = id)
    (h : t.step write true op = .ok t') :
    (∀ a, t'.result.lastChangeId a = t.result.lastChangeId a) ∧
      t'.store.changeIds = t.store.changeIds ∧
      (∀ a, op = .accountId a → ∃ id, t.result.lastChangeId a = .ok id) ∧
      ∀ ops, putAll t.store.logs (logWrites ids t.context.accountId t.changeId (op :: ops)) =
        putAll t'.store.logs (logWrites ids t'.context.accountId t'.changeId ops) := by
  cases op
  case accountId a =>
    simp only [Txn.step, if_true, setCurrentChangeId] at h
    split at h
    · next id r hset =>
      split at hset
      · next i hlast =>
        obtain ⟨rfl, rfl⟩ := Prod.mk.inj (Except.ok.inj hset)
        obtain rfl := Except.ok.inj h
        refine ⟨fun _ => rfl, rfl, ?_, ?_⟩
        · intro b hb
          obtain rfl := Operation.accountId.inj hb
          exact ⟨_, hlast⟩
        · intro ops
          show putAll _ (logWrites ids a (ids a) ops) = _
          rw [hids a _ hlast]
          rfl
      · cases hset
    · cases h
  case collection | documentId =>
    obtain rfl := Except.ok.inj h
    exact ⟨fun _ => rfl, rfl, fun a ha => (by cases ha), fun _ => rfl⟩
  case log x v =>
    obtain rfl := Except.ok.inj h
    exact ⟨fun _ => rfl, rfl, fun a ha => (by cases ha), fun _ => rfl⟩
  all_goals
    simp only [Txn.step] at h
    split at h
    · obtain rfl := Except.ok.inj h
      exact ⟨fun a => lastChangeId_pushCounterId _ _ a, rfl, fun a ha => (by cases ha), fun _ => rfl⟩
    · cases h

theorem Txn.run_logs (ids : UInt32 → ℕ) {ops : List Operation} : ∀ {t t' : Txn σ},
    (∀ a id, t.result.lastChangeId a = .ok id → ids a = id) → t.run write true ops = .ok t' →
      t'.store.changeIds = t.store.changeIds ∧
      (∀ a, Operation.accountId a ∈ ops → ∃ id, t.result.lastChangeId a = .ok id) ∧
      t'.store.logs = putAll t.store.logs (logWrites ids t.context.accountId t.changeId ops) := by
  induction ops with
  | nil =>
    intro t t' _ h
    obtain rfl := Except.ok.inj h
    exact ⟨rfl, fun a ha => absurd ha not_mem_nil, rfl⟩
  | cons op ops ih =>
    intro t t' hids h
    simp only [Txn.run] at h
    split at h
    · next t₁ hstep =>
      obtain ⟨hlast, hstore, hacc, hlogs⟩ := Txn.step_logs ids hids hstep
      have hids₁ : ∀ a id, t₁.result.lastChangeId a = .ok id → ids a = id := by
        intro a id ha
        exact hids a id ((hlast a).symm.trans ha)
      obtain ⟨hstore', hacc', hlogs'⟩ := ih hids₁ h
      refine ⟨hstore'.trans hstore, ?_, ?_⟩
      · intro a ha
        rcases mem_cons.mp ha with ha | ha
        · exact hacc a ha.symm
        · obtain ⟨id, hid⟩ := hacc' a ha
          exact ⟨id, (hlast a).symm.trans hid⟩
      · rw [hlogs', hlogs ops]
    · cases h

theorem assignChangeIds_spec (keys : List UInt32) (s : StoreState σ) (hk : keys.Nodup) :
    let r := keys.foldl assignChangeId (default, s)
    (∀ a, a ∈ keys → r.1.lastChangeId a = .ok (s.changeIds a + 1)) ∧
      (∀ a id, r.1.lastChangeId a = .ok id → a ∈ keys) ∧
      (∀ a, r.2.changeIds a = if a ∈ keys then s.changeIds a + 1 else s.changeIds a) ∧
      r.2.logs = s.logs := by
  induction keys using List.reverseRecOn with
  | nil => exact ⟨fun a ha => absurd ha not_mem_nil, fun a id h => (by cases h), fun a => rfl, rfl⟩
  | append_singleton keys k ih =>
    obtain ⟨hk₁, -, hk₂⟩ := nodup_append.mp hk
    have hnot : k ∉ keys := fun h => hk₂ k h k (by simp) rfl
    obtain ⟨hlast, hmem, hids, hlogs⟩ := ih hk₁
    have hstep : (keys ++ [k]).foldl assignChangeId (default, s) =
        assignChangeId (keys.foldl assignChangeId (default, s)) k := by
      rw [foldl_append]
      rfl
    rw [hstep]
    have hkid : (keys.foldl assignChangeId (default, s)).2.changeIds k = s.changeIds k := by
      rw [hids k, if_neg hnot]
    refine ⟨?_, ?_, ?_, hlogs⟩
    · intro a ha
      show (pushChangeId _ k _).lastChangeId a = _
      rw [lastChangeId_pushChangeId, hkid]
      split_ifs with h
      · rw [h]
      · rcases mem_append.mp ha with ha | ha
        · exact hlast a ha
        · exact absurd (mem_singleton.mp ha).symm h
    · intro a id ha
      have ha' : (pushChangeId _ k _).lastChangeId a = .ok id := ha
      rw [lastChangeId_pushChangeId] at ha'
      split_ifs at ha' with h
      · simp [h]
      · exact mem_append_left _ (hmem a id ha')
    · intro a
      show update _ k _ a = _
      by_cases h : a = k
      · subst h
        rw [update_self, hkid, if_pos (by simp)]
      · rw [update_of_ne h, hids a]
        simp [h]

/-- **A commit** with changes assigns one change id to each account and stores the log entries under
them; no operation names another account. -/
theorem commit_logs {s s' : StoreState σ} {batch : Batch} {r : AssignedIds}
    (hne : batch.changes.isEmpty = false) (h : commit write s batch = .ok (r, s')) :
    (∀ a, s'.changeIds a = if a ∈ batch.changes.keys then s.changeIds a + 1 else s.changeIds a) ∧
      (∀ a, Operation.accountId a ∈ batch.ops → a ∈ batch.changes.keys) ∧
      s'.logs = putAll s.logs
        (logWrites (fun a => s.changeIds a + 1) Context.start.accountId 0 batch.ops) := by
  obtain ⟨hlast, hmem, hids, hlogs⟩ := assignChangeIds_spec batch.changes.keys s batch.changes.nodup
  simp only [commit, hne] at h
  split at h
  · next t hrun =>
    obtain ⟨rfl, rfl⟩ := Prod.mk.inj (Except.ok.inj h)
    have hfit : ∀ a id,
        (batch.changes.keys.foldl assignChangeId (default, s)).1.lastChangeId a = .ok id →
          s.changeIds a + 1 = id := by
      intro a id ha
      have := hlast a (hmem a id ha)
      exact Except.ok.inj (this.symm.trans ha)
    obtain ⟨hstore, hacc, hput⟩ := Txn.run_logs (fun a => s.changeIds a + 1) hfit hrun
    refine ⟨?_, ?_, ?_⟩
    · intro a
      rw [hstore]
      exact hids a
    · intro a ha
      obtain ⟨id, hid⟩ := hacc a ha
      exact hmem a id hid
    · rw [hput]
      rw [hlogs]
  · cases h

end

/-! ## Log operations behind an account -/

def Operation.isAccountId : Operation → Bool
  | .accountId _ => true
  | _ => false

open Operation

/-- Every log operation comes after one that names an account. -/
def anchored : Bool → List Operation → Bool
  | _, [] => true
  | _, .accountId _ :: ops => anchored true ops
  | seen, .log _ _ :: ops => seen && anchored seen ops
  | seen, _ :: ops => anchored seen ops

/-- The log operations with their accounts. -/
def logged : UInt32 → List Operation → List (UInt32 × LogCollection × List UInt8)
  | _, [] => []
  | _, .accountId a :: ops => logged a ops
  | a, .log x v :: ops => (a, x, v) :: logged a ops
  | a, _ :: ops => logged a ops

/-- The last account named. -/
def lastAccount : UInt32 → List Operation → UInt32
  | a, [] => a
  | _, .accountId a :: ops => lastAccount a ops
  | a, _ :: ops => lastAccount a ops

/-- A log operation as an entry of the store. -/
def entry (ids : UInt32 → ℕ) (e : UInt32 × LogCollection × List UInt8) : LogKey × List UInt8 :=
  (⟨e.1, e.2.1.toU8, ids e.1⟩, e.2.2)

theorem anchored_append (seen : Bool) (l m : List Operation) :
    anchored seen (l ++ m) = (anchored seen l && anchored (seen || l.any isAccountId) m) := by
  induction l generalizing seen with
  | nil => simp [anchored]
  | cons op l ih => cases op <;> simp [anchored, ih, isAccountId, Bool.and_assoc]

theorem logged_append (a : UInt32) (l m : List Operation) :
    logged a (l ++ m) = logged a l ++ logged (lastAccount a l) m := by
  induction l generalizing a with
  | nil => rfl
  | cons op l ih => cases op <;> simp [logged, lastAccount, ih]

theorem lastAccount_append (a : UInt32) (l m : List Operation) :
    lastAccount a (l ++ m) = lastAccount (lastAccount a l) m := by
  induction l generalizing a with
  | nil => rfl
  | cons op l ih => cases op <;> simp [lastAccount, ih]

theorem logWrites_eq (ids : UInt32 → ℕ) {seen : Bool} (h : anchored seen ops) {a b : UInt32}
    {id : ℕ} (hs : seen → a = b ∧ id = ids a) :
    logWrites ids a id ops = (logged b ops).map (entry ids) := by
  induction ops generalizing seen a b id with
  | nil => rfl
  | cons op ops ih =>
    cases op
    case accountId c => exact ih h fun _ => ⟨rfl, rfl⟩
    case log x v =>
      obtain ⟨hseen, hrest⟩ := Bool.and_eq_true_iff.mp h
      obtain ⟨rfl, rfl⟩ := hs hseen
      rw [logWrites, ih hrest hs]
      rfl
    all_goals exact ih h hs

theorem logWrites_of_anchored (ids : UInt32 → ℕ) (h : anchored false ops) (a : UInt32) (id : ℕ) :
    logWrites ids a id ops = (logged Context.start.accountId ops).map (entry ids) :=
  logWrites_eq ids h fun hf => absurd hf Bool.false_ne_true

/-! ## What the calls announce -/

/-- A change with its account and collection. -/
abbrev Record := UInt32 × SyncCollection × LogChange

/-- The changes of one account and collection. -/
def recordsOf (a : UInt32) (x : SyncCollection) (l : List Record) : List LogChange :=
  l.filterMap fun r => if r.1 = a ∧ r.2.1 = x then some r.2.2 else none

/-- What a call announces: nothing without an account or, but for a property change, a document. -/
def Call.announces (b : BatchBuilder) (c : Call) : List Record :=
  let document (x : SyncCollection) (f : UInt32 → LogChange) : List Record :=
    match b.currentAccountId, b.currentDocumentId with
    | some a, some d => [(a, x, f d)]
    | _, _ => []
  match c with
  | .logItemInsert x q => document x fun d => .insertItem (buildId q d)
  | .logItemUpdate x q => document x fun d => .updateItem (buildId q d)
  | .logItemDelete x q => document x fun d => .deleteItem (buildId q d)
  | .logContainerInsert x => document x .insertContainer
  | .logContainerUpdate x => document x .updateContainer
  | .logContainerDelete x => document x .deleteContainer
  | .logContainerPropertyChange x d =>
    match b.currentAccountId with
    | some a => [(a, x, .updateContainerProperty d)]
    | none => []
  | _ => []

section

variable (o : HashOrder UInt32) (p : HashOrder UInt64)

/-- The finished stretches and the one under way. -/
structure Journal where
  builder : BatchBuilder
  done : List (List Record)
  cur : List Record

def Journal.step (j : Journal) (c : Call) : Journal :=
  match c with
  | .commitPoint =>
    if j.builder.isLargeBatch then ⟨j.builder.commitPoint o p, j.done ++ [j.cur], []⟩
    else j
  | c => ⟨j.builder.call o p c, j.done, j.cur ++ c.announces j.builder⟩

def journal (calls : List Call) : Journal := calls.foldl (Journal.step o p) ⟨.new, [], []⟩

/-- The changes announced between two cuts, stretch by stretch. -/
def stretches (calls : List Call) : List (List Record) :=
  (journal o p calls).done ++ [(journal o p calls).cur]

theorem journal_concat (calls : List Call) (c : Call) :
    journal o p (calls ++ [c]) = (journal o p calls).step o p c := by
  simp [journal]

theorem Journal.builder_step (j : Journal) (c : Call) :
    (j.step o p c).builder = j.builder.call o p c := by
  cases c
  case commitPoint =>
    show (if j.builder.isLargeBatch then _ else j : Journal).builder = j.builder.commitPoint o p
    unfold BatchBuilder.commitPoint
    split_ifs <;> rfl
  all_goals rfl

theorem builder_journal (calls : List Call) : (journal o p calls).builder = build o p calls := by
  induction calls using List.reverseRecOn with
  | nil => rfl
  | append_singleton calls c ih => rw [journal_concat, Journal.builder_step, ih, build_concat]

end

/-- The record a builder holds for an account and a collection. -/
def BatchBuilder.pending (b : BatchBuilder) (a : UInt32) (x : SyncCollection) : Option Changes :=
  (b.changes.get a).bind fun l => l.changes.get x

open BatchBuilder

theorem recordsOf_append (a : UInt32) (x : SyncCollection) (l m : List Record) :
    recordsOf a x (l ++ m) = recordsOf a x l ++ recordsOf a x m := by
  simp [recordsOf]

theorem pending_alter (b : BatchBuilder) (a c : UInt32) (x y : SyncCollection) (r : LogChange) :
    ({ b with changes := b.changes.alter a fun l => l.log x r } : BatchBuilder).pending c y =
      if a = c ∧ x = y then some (((b.pending c y).getD default).log r) else b.pending c y := by
  unfold BatchBuilder.pending
  rw [get_alter]
  by_cases ha : a = c
  · subst ha
    rw [if_pos rfl]
    show (alter _ x fun s : Changes => s.log r).get y = _
    rw [get_alter]
    by_cases hx : x = y
    · subst hx
      rcases b.changes.get a with _ | l
      · simp
        rfl
      · simp
    · rcases b.changes.get a with _ | l
      · simp [hx, Ne.symm hx]
        rfl
      · simp [hx, Ne.symm hx]
  · rw [if_neg (Ne.symm ha), if_neg (fun h => ha h.1)]

/-- The record after some changes, when there were any. -/
def held (m : Option Changes) (l : List LogChange) : Option Changes :=
  l.foldl (fun m r => some ((m.getD default).log r)) m

theorem held_append (m : Option Changes) (l l' : List LogChange) :
    held m (l ++ l') = held (held m l) l' := by
  simp [held]

theorem held_none (l : List LogChange) : held none l = if l = [] then none else some (.ofLog l) := by
  induction l using List.reverseRecOn with
  | nil => rfl
  | append_singleton l r ih =>
    have hne : l ++ [r] ≠ [] := by simp
    rw [held_append, ih, Changes.ofLog_concat, if_neg hne]
    by_cases hl : l = []
    · subst hl
      rfl
    · rw [if_neg hl]
      rfl

theorem pending_logWith (b : BatchBuilder) (x y : SyncCollection) (r : LogChange) (c : UInt32) :
    (b.logWith fun l => l.log x r).pending c y =
      held (b.pending c y) (recordsOf c y (match b.currentAccountId with
        | some a => [(a, x, r)]
        | none => [])) := by
  unfold logWith
  rcases b.currentAccountId with _ | a
  · rfl
  · show ({ b with changes := b.changes.alter a fun l => l.log x r } : BatchBuilder).pending c y = _
    rw [pending_alter]
    by_cases h : a = c ∧ x = y
    · simp [recordsOf, h, held]
    · simp [recordsOf, h, held]

theorem pending_logDocument (b : BatchBuilder) (x y : SyncCollection) (f : UInt32 → LogChange)
    (c : UInt32) :
    (b.logDocument fun d l => l.log x (f d)).pending c y =
      held (b.pending c y) (recordsOf c y (match b.currentAccountId, b.currentDocumentId with
        | some a, some d => [(a, x, f d)]
        | _, _ => [])) := by
  unfold logDocument
  rcases hd : b.currentDocumentId with _ | d
  · rcases b.currentAccountId with _ | a <;> rfl
  · have h := pending_logWith b x y (f d) c
    rcases hacc : b.currentAccountId with _ | a <;> rw [hacc] at h <;> exact h

theorem pending_vanished (b : BatchBuilder) (a c : UInt32) (x : VanishedCollection) (i : VanishedItem)
    (y : SyncCollection) :
    ({ b with changes := b.changes.alter a fun l => l.logVanishedItem x i } : BatchBuilder).pending c y =
      b.pending c y := by
  unfold BatchBuilder.pending
  rw [get_alter]
  by_cases ha : c = a
  · subst ha
    rw [if_pos rfl]
    rcases b.changes.get c with _ | l <;> rfl
  · rw [if_neg ha]

section

variable (o : HashOrder UInt32) (p : HashOrder UInt64)

variable {c : Call} {a : UInt32} {keys : List UInt32} {ops : List Operation}
  {records cur : List Record} {x : SyncCollection} {b : BatchBuilder}

theorem pending_call (b : BatchBuilder) (hc : c ≠ .commitPoint) (a : UInt32) (x : SyncCollection) :
    (b.call o p c).pending a x = held (b.pending a x) (recordsOf a x (c.announces b)) := by
  cases c
  case commitPoint => exact absurd rfl hc
  case logItemInsert y q => exact pending_logDocument b y x (fun d => .insertItem (buildId q d)) a
  case logItemUpdate y q => exact pending_logDocument b y x (fun d => .updateItem (buildId q d)) a
  case logItemDelete y q => exact pending_logDocument b y x (fun d => .deleteItem (buildId q d)) a
  case logContainerInsert y => exact pending_logDocument b y x .insertContainer a
  case logContainerUpdate y => exact pending_logDocument b y x .updateContainer a
  case logContainerDelete y => exact pending_logDocument b y x .deleteContainer a
  case logContainerPropertyChange y d => exact pending_logWith b y x (.updateContainerProperty d) a
  case logVanishedItem y i =>
    show (b.logVanishedItem y i).pending a x = b.pending a x
    unfold logVanishedItem logWith
    rcases b.currentAccountId with _ | k
    · rfl
    · exact pending_vanished _ k a y i x
  case withAccountId k =>
    show (b.withAccountId k).pending a x = b.pending a x
    unfold withAccountId
    split_ifs <;> rfl
  case withCollection y =>
    show (b.withCollection y).pending a x = b.pending a x
    unfold withCollection
    split_ifs <;> rfl
  all_goals rfl

theorem keys_call_iff (b : BatchBuilder) (hc : c ≠ .commitPoint) (a : UInt32) :
    a ∈ (b.call o p c).changedCollections.keys ↔
      a ∈ b.changedCollections.keys ∨ ∃ n v, c = .logShareNotification n a v := by
  by_cases hk : c.keyed = []
  · rw [(b.call_unkeyed o p hk hc).1, or_iff_left]
    rintro ⟨n, v, rfl⟩
    cases hk
  cases c
  case logShareNotification n k v =>
    show a ∈ (alter _ _ _).keys ↔ _
    rw [mem_keys_alter]
    simp [or_comm, eq_comm]
  all_goals
    simp only [reduceCtorEq, exists_false, or_false]
    first | exact Iff.rfl | exact absurd rfl hk

theorem keys_call (b : BatchBuilder) (hc : c ≠ .commitPoint)
    (ha : a ∈ b.changedCollections.keys) : a ∈ (b.call o p c).changedCollections.keys :=
  (keys_call_iff o p b hc a).mpr (Or.inl ha)

/-! ## Writing the log -/

theorem anchored_log (l : List (LogCollection × List UInt8)) :
    anchored true (l.map logOperation) = true := by
  induction l with
  | nil => rfl
  | cons e l ih => exact ih

theorem logged_log (a : UInt32) (l : List (LogCollection × List UInt8)) :
    logged a (l.map logOperation) = l.map (Prod.mk a) := by
  induction l with
  | nil => rfl
  | cons e l ih =>
    show (a, e.1, e.2) :: logged a (l.map logOperation) = _
    rw [ih]
    rfl

theorem lastAccount_log (a : UInt32) (l : List (LogCollection × List UInt8)) :
    lastAccount a (l.map logOperation) = a := by
  induction l with
  | nil => rfl
  | cons e l ih => exact ih

theorem ops_serializeAccount (b : BatchBuilder) (r : UInt32 × ChangeLogBuilder) :
    (b.serializeAccount o p r).ops = b.ops ++ (b.emits (.withAccountId r.1) ++
      (accountLog o p r).map logOperation) := by
  obtain ⟨cc, hcc⟩ := b.serializeAccount_eq o p r
  rw [hcc, ← append_assoc]
  rw [(b.call_spec o p (c := .withAccountId r.1) (by simp)).1.symm]
  rfl

theorem keys_serializeAccount (b : BatchBuilder) (r : UInt32 × ChangeLogBuilder) (a : UInt32) :
    a ∈ (b.serializeAccount o p r).changedCollections.keys ↔
      a ∈ b.changedCollections.keys ∨ a = r.1 ∧ r.2.changes.inner ≠ [] := by
  have hsync (l : List (SyncCollection × Changes)) (b : BatchBuilder) :
      a ∈ (l.foldl (serializeSync o p r.1) b).changedCollections.keys ↔
        a ∈ b.changedCollections.keys ∨ a = r.1 ∧ l ≠ [] := by
    induction l generalizing b with
    | nil => simp
    | cons x l ih =>
      rw [foldl_cons, ih]
      show (a ∈ (alter _ _ _).keys ∨ _) ↔ _
      rw [mem_keys_alter]
      tauto
  have hvanished (l : List (VanishedCollection × VanishedItems)) (b : BatchBuilder) :
      (l.foldl serializeVanished b).changedCollections = b.changedCollections := by
    induction l generalizing b with
    | nil => rfl
    | cons x l ih => exact ih _
  have hwith : (b.withAccountId r.1).changedCollections = b.changedCollections := by
    unfold withAccountId
    split_ifs <;> rfl
  rw [serializeAccount, hvanished, hsync, hwith]

theorem logged_account (b : BatchBuilder) (r : UInt32 × ChangeLogBuilder) {seen : Bool}
    (hseen : b.currentAccountId.isSome → seen) (ha : ∀ k, b.currentAccountId = some k → a = k) :
    let ops := b.emits (.withAccountId r.1) ++ (accountLog o p r).map logOperation
    anchored seen ops ∧ (seen || ops.any isAccountId) = true ∧ lastAccount a ops = r.1 ∧
      logged a ops = (accountLog o p r).map (Prod.mk r.1) := by
  simp only [emits]
  split_ifs with h
  · obtain rfl := ha _ h
    have hs : seen = true := hseen (by rw [h]; rfl)
    rw [hs]
    exact ⟨anchored_log _, rfl, lastAccount_log _ _, logged_log _ _⟩
  · refine ⟨anchored_log _, ?_, lastAccount_log _ _, logged_log _ _⟩
    simp [isAccountId]

theorem logged_accounts (l : List (UInt32 × ChangeLogBuilder)) :
    ∀ (b : BatchBuilder) (seen : Bool) (a : UInt32), (b.currentAccountId.isSome → seen) →
      (∀ k, b.currentAccountId = some k → a = k) →
      ∃ ops, (l.foldl (serializeAccount o p) b).ops = b.ops ++ ops ∧
        anchored seen ops ∧
        logged a ops = l.flatMap (fun r => (accountLog o p r).map (Prod.mk r.1)) ∧
        ∀ k, k ∈ (l.foldl (serializeAccount o p) b).changedCollections.keys ↔
          k ∈ b.changedCollections.keys ∨ ∃ r ∈ l, k = r.1 ∧ r.2.changes.inner ≠ [] := by
  induction l with
  | nil =>
    intro b seen a _ _
    exact ⟨[], by simp, rfl, rfl, by simp⟩
  | cons r l ih =>
    intro b seen a hseen ha
    obtain ⟨hanch, hany, hlast, hlog⟩ := logged_account o p b r hseen ha
    have hcur := currentAccountId_serializeAccount o p b r
    obtain ⟨ops, hops, hanch', hlog', hkeys⟩ := ih (b.serializeAccount o p r) true r.1
      (fun _ => rfl) (fun k hk => some.inj (hcur.symm.trans hk))
    refine ⟨(b.emits (.withAccountId r.1) ++ (accountLog o p r).map logOperation) ++ ops,
      ?_, ?_, ?_, ?_⟩
    · rw [foldl_cons, hops, ops_serializeAccount, append_assoc]
    · rw [anchored_append, hanch, hany, hanch']
      rfl
    · rw [logged_append, hlog, hlast, hlog']
      rfl
    · intro k
      rw [foldl_cons, hkeys, keys_serializeAccount]
      simp only [mem_cons, exists_eq_or_imp]
      exact or_assoc

/-- A finished piece holds the records of its stretch, each once, and its accounts count as changed. -/
structure Finished (keys : List UInt32) (ops : List Operation) (records : List Record) : Prop where
  anchor : anchored false ops
  log : ∀ a x v, (a, LogCollection.sync x, v) ∈ logged Context.start.accountId ops ↔
    ∃ ch, held none (recordsOf a x records) = some ch ∧ v = ch.serialize o p
  keys : ∀ a x, recordsOf a x records ≠ [] → a ∈ keys

theorem Finished.mono {keys' : List UInt32} (h : Finished o p keys ops records)
    (hk : ∀ a ∈ keys, a ∈ keys') : Finished o p keys' ops records :=
  ⟨h.anchor, h.log, fun a x hr => hk a (h.keys a x hr)⟩

/-- The piece under construction holds no log yet, and its builder the records of the stretch. -/
structure Open (b : BatchBuilder) (cur : List Record) : Prop where
  quiet : ∀ a, logged a b.piece = []
  anchored : anchored false b.piece
  named : b.currentAccountId.isSome → b.piece.any isAccountId
  account : ∀ k, b.currentAccountId = some k → lastAccount Context.start.accountId b.piece = k
  pending : ∀ a x, b.pending a x = held none (recordsOf a x cur)

theorem mem_accountLog {r : UInt32 × ChangeLogBuilder} {v : List UInt8} :
    (LogCollection.sync x, v) ∈ accountLog o p r ↔
      ∃ ch, (x, ch) ∈ r.2.changes.inner ∧ v = ch.serialize o p := by
  simp only [accountLog, mem_append, List.mem_map]
  constructor
  · rintro (⟨⟨y, ch⟩, hm, he⟩ | ⟨y, -, he⟩)
    · obtain ⟨hy, rfl⟩ := Prod.mk.inj he
      obtain rfl := LogCollection.sync.inj hy
      exact ⟨ch, hm, rfl⟩
    · cases (Prod.mk.inj he).1
  · rintro ⟨ch, hm, rfl⟩
    exact Or.inl ⟨(x, ch), hm, rfl⟩

theorem pending_eq_some {ch : Changes} :
    b.pending a x = some ch ↔ ∃ l, (a, l) ∈ b.changes.inner ∧ (x, ch) ∈ l.changes.inner := by
  unfold BatchBuilder.pending
  rw [bind_eq_some_iff]
  constructor
  · rintro ⟨l, hl, hx⟩
    exact ⟨l, get_eq_some.mp hl, get_eq_some.mp hx⟩
  · rintro ⟨l, hl, hx⟩
    exact ⟨l, get_eq_some.mpr hl, get_eq_some.mpr hx⟩

theorem serializeChanges_eq (b : BatchBuilder) :
    b.serializeChanges o p =
      b.changes.inner.foldl (serializeAccount o p) { b with changes := .empty } ∨
    b.changes.inner = [] ∧ b.serializeChanges o p = b := by
  unfold serializeChanges
  split_ifs with he
  · exact Or.inr ⟨List.isEmpty_iff.mp he, rfl⟩
  · exact Or.inl rfl

theorem keys_serializeChanges (b : BatchBuilder) (a : UInt32) :
    a ∈ (b.serializeChanges o p).changedCollections.keys ↔
      a ∈ b.changedCollections.keys ∨ ∃ x ch, b.pending a x = some ch := by
  have hpending : (∃ x ch, b.pending a x = some ch) ↔
      ∃ r ∈ b.changes.inner, a = r.1 ∧ r.2.changes.inner ≠ [] := by
    constructor
    · rintro ⟨x, ch, h⟩
      obtain ⟨l, hl, hx⟩ := pending_eq_some.1 h
      exact ⟨(a, l), hl, rfl, ne_nil_of_mem hx⟩
    · rintro ⟨⟨k, l⟩, hr, rfl, hne⟩
      obtain ⟨⟨x, ch⟩, hx⟩ := exists_mem_of_ne_nil _ hne
      exact ⟨x, ch, pending_eq_some.2 ⟨l, hr, hx⟩⟩
  rw [hpending]
  obtain ⟨-, -, -, -, hkeys⟩ := logged_accounts o p b.changes.inner { b with changes := .empty } true
    (b.currentAccountId.getD 0) (fun _ => rfl) (fun k hk => by
      have hk' : b.currentAccountId = some k := hk
      rw [hk']
      rfl)
  rcases serializeChanges_eq o p b with hser | ⟨hnil, hser⟩
  · rw [hser]
    exact hkeys a
  · rw [hser, hnil]
    simp

theorem Open.finish (h : Open b cur) :
    ∃ ops, (b.serializeChanges o p).ops = b.ops ++ ops ∧
      Finished o p (b.serializeChanges o p).changedCollections.keys (b.piece ++ ops) cur ∧
      ∀ a ∈ b.changedCollections.keys, a ∈ (b.serializeChanges o p).changedCollections.keys := by
  obtain ⟨ops, hops, hanch, hlog, -⟩ := logged_accounts o p b.changes.inner
    { b with changes := .empty } (b.piece.any isAccountId)
    (lastAccount Context.start.accountId b.piece) h.named h.account
  have hops' : (b.serializeChanges o p).ops = b.ops ++ ops := by
    rcases serializeChanges_eq o p b with hser | ⟨hnil, hser⟩
    · rw [hser]
      exact hops
    · rw [hnil] at hops
      rw [hser]
      exact hops
  refine ⟨ops, hops', ⟨?_, ?_, ?_⟩, fun a ha => (keys_serializeChanges o p b a).mpr (Or.inl ha)⟩
  · rw [anchored_append, h.anchored, Bool.false_or, hanch]
    rfl
  · intro a x v
    rw [logged_append, h.quiet, nil_append, hlog, ← h.pending]
    simp only [mem_flatMap, List.mem_map]
    constructor
    · rintro ⟨r, hr, e, he, heq⟩
      obtain ⟨rfl, rfl⟩ := Prod.mk.inj heq
      obtain ⟨ch, hch, rfl⟩ := (mem_accountLog o p).mp he
      exact ⟨ch, pending_eq_some.2 ⟨r.2, hr, hch⟩, rfl⟩
    · rintro ⟨ch, hp, rfl⟩
      obtain ⟨l, hl, hx⟩ := pending_eq_some.1 hp
      exact ⟨(a, l), hl, _, (mem_accountLog o p).mpr ⟨ch, hx, rfl⟩, rfl⟩
  · intro a x hr
    have hp := h.pending a x
    rw [held_none, if_neg hr] at hp
    exact (keys_serializeChanges o p b a).mpr (Or.inr ⟨x, _, hp⟩)

theorem changes_serializeChanges (b : BatchBuilder) : (b.serializeChanges o p).changes = .empty := by
  have haccounts (l : List (UInt32 × ChangeLogBuilder)) (b : BatchBuilder) :
      (l.foldl (serializeAccount o p) b).changes = b.changes := by
    induction l generalizing b with
    | nil => rfl
    | cons r l ih =>
      obtain ⟨cc, hcc⟩ := b.serializeAccount_eq o p r
      rw [foldl_cons, ih, hcc]
      exact b.changes_withAccountId r.1
  rcases serializeChanges_eq o p b with hser | ⟨hnil, hser⟩
  · rw [hser, haccounts]
  · rw [hser]
    exact VecMap.ext hnil

theorem pending_serializeChanges (b : BatchBuilder) (a : UInt32) (x : SyncCollection) :
    (b.serializeChanges o p).pending a x = none := by
  rw [BatchBuilder.pending, changes_serializeChanges]
  rfl

theorem logged_keyed {l : List Operation} (h : ∀ op ∈ l, op.isKeyed) (a : UInt32) (seen : Bool) :
    logged a l = [] ∧ anchored seen l = true ∧ lastAccount a l = a := by
  induction l with
  | nil => exact ⟨rfl, rfl, rfl⟩
  | cons op l ih =>
    have hrest := ih fun x hx => h x (mem_cons_of_mem _ hx)
    have hop := h op mem_cons_self
    cases op
    case assertValue | value | index => exact hrest
    all_goals exact Bool.noConfusion hop

theorem logged_emits (b : BatchBuilder) (c : Call) (a : UInt32) (seen : Bool) :
    logged a (b.emits c) = [] ∧ anchored seen (b.emits c) = true ∧
      ((∀ k, b.currentAccountId = some k → a = k) →
        ∀ k, (b.cached.step c).accountId = some k → lastAccount a (b.emits c) = k) ∧
      ((b.currentAccountId.isSome → seen) →
        (b.cached.step c).accountId.isSome → seen || (b.emits c).any isAccountId) := by
  by_cases hk : b.emits c = c.keyed ∧ (b.cached.step c).accountId = b.currentAccountId
  · obtain ⟨h1, h2, h3⟩ := logged_keyed (fun op hop => Call.isKeyed_of_mem hop) a seen (l := c.keyed)
    rw [hk.1, hk.2]
    refine ⟨h1, h2, fun ha k hk => h3.trans (ha k hk), fun hs hsome => ?_⟩
    rw [hs hsome]
    rfl
  cases c
  case withAccountId k =>
    simp only [emits]
    split_ifs with h
    · refine ⟨rfl, rfl, fun ha j hj => ?_, fun hs _ => ?_⟩
      · rw [← some.inj hj]
        exact ha k h
      · rw [hs (by rw [h]; rfl)]
        rfl
    · exact ⟨rfl, rfl, fun _ j hj => some.inj hj, fun _ _ => by simp [isAccountId]⟩
  case withCollection x =>
    simp only [emits]
    have hsome (hs : b.currentAccountId.isSome → seen) (h : b.currentAccountId.isSome) : seen = true :=
      hs h
    split_ifs with h
    · refine ⟨rfl, rfl, fun ha => ha, fun hs h => ?_⟩
      rw [hsome hs h]
      rfl
    · refine ⟨rfl, rfl, fun ha => ha, fun hs h => ?_⟩
      rw [hsome hs h]
      rfl
  case withDocument d =>
    refine ⟨rfl, rfl, fun ha => ha, fun hs h => ?_⟩
    have : seen = true := hs h
    rw [this]
    rfl
  all_goals exact absurd ⟨rfl, rfl⟩ hk

/-- The finished pieces hold the finished stretches, the builder the one under way. -/
structure Logs (j : Journal) : Prop where
  split : ∃ done, BatchBuilder.Split j.builder done j.builder.piece ∧
    List.Forall₂ (Finished o p j.builder.changedCollections.keys) done j.done
  opened : Open j.builder j.cur

theorem Open.call (h : Open b cur) {done : List (List Operation)}
    (hs : BatchBuilder.Split b done b.piece)
    (hc : c ≠ .commitPoint) : Open (b.call o p c) (cur ++ c.announces b) := by
  obtain ⟨hops, hpoints, hcached⟩ := b.call_spec o p hc
  have hpiece : (b.call o p c).piece = b.piece ++ b.emits c := (hs.append hops hpoints).piece_eq
  have hacc : (b.call o p c).currentAccountId = (b.cached.step c).accountId :=
    congrArg Declaration.accountId hcached
  obtain ⟨-, hanch, hlast, hnamed⟩ := logged_emits b c (lastAccount Context.start.accountId b.piece)
    (b.piece.any isAccountId)
  refine ⟨?_, ?_, ?_, ?_, ?_⟩
  · intro a
    rw [hpiece, logged_append, h.quiet, (logged_emits b c _ false).1]
    rfl
  · rw [hpiece, anchored_append, h.anchored, Bool.false_or, hanch]
    rfl
  · intro hsome
    rw [hpiece, any_append]
    rw [hacc] at hsome
    exact hnamed h.named hsome
  · intro k hk
    rw [hpiece, lastAccount_append]
    rw [hacc] at hk
    exact hlast h.account k hk
  · intro a x
    rw [pending_call o p b hc, h.pending, recordsOf_append, held_append]

theorem Open.cut (hp : ∀ a x, b.pending a x = none) (hpiece : b.piece = b.contextOps) :
    Open b [] := by
  obtain ⟨acc, col, d, ch, cc, asr, size, count, points, ops⟩ := b
  refine ⟨?_, ?_, ?_, ?_, hp⟩
  · intro a
    rw [hpiece]
    cases acc <;> cases col <;> rfl
  · rw [hpiece]
    cases acc <;> cases col <;> rfl
  · intro hsome
    rw [hpiece]
    obtain ⟨k, rfl⟩ := isSome_iff_exists.mp hsome
    rfl
  · intro k hk
    obtain rfl : acc = some k := hk
    rw [hpiece]
    cases col <;> rfl

theorem Logs.step {j : Journal} (h : Logs o p j) (c : Call) : Logs o p (j.step o p c) := by
  obtain ⟨done, hs, hdone⟩ := h.split
  by_cases hc : c = .commitPoint
  · subst hc
    show Logs o p (if j.builder.isLargeBatch then _ else j)
    split_ifs with hb
    · obtain ⟨ops, hops, hfin, hkeys⟩ := h.opened.finish o p
      have hs' := hs.commit o p hb hops
      have hpiece := hs'.piece_eq
      have hcommit : (j.builder.commitPoint o p).changedCollections =
          (j.builder.serializeChanges o p).changedCollections := by
        unfold commitPoint
        rw [if_pos hb]
      refine ⟨⟨done ++ [j.builder.piece ++ ops], ?_, ?_⟩, ?_⟩
      · rw [hpiece]
        exact hs'
      · rw [hcommit]
        exact rel_append (hdone.imp fun _ _ hf => hf.mono o p hkeys) (.cons hfin .nil)
      · refine Open.cut ?_ ?_
        · intro a x
          unfold commitPoint
          rw [if_pos hb]
          exact pending_serializeChanges o p j.builder a x
        · rw [hpiece]
          unfold commitPoint
          rw [if_pos hb]
          rfl
    · exact h
  · have hstep : j.step o p c = ⟨j.builder.call o p c, j.done, j.cur ++ c.announces j.builder⟩ := by
      cases c
      case commitPoint => exact absurd rfl hc
      all_goals rfl
    obtain ⟨hops, hpoints, -⟩ := j.builder.call_spec o p hc
    have hs' := hs.append hops hpoints
    rw [hstep]
    refine ⟨⟨done, ?_, ?_⟩, h.opened.call o p hs hc⟩
    · rw [hs'.piece_eq]
      exact hs'
    · exact hdone.imp fun _ _ hf => hf.mono o p fun a ha => keys_call o p j.builder hc ha

theorem Logs.journal (calls : List Call) : Logs o p (journal o p calls) := by
  induction calls using List.reverseRecOn with
  | nil =>
    refine ⟨⟨[], ⟨rfl, rfl⟩, .nil⟩, ?_⟩
    refine ⟨fun _ => rfl, rfl, fun h => ?_, fun k h => ?_, fun _ _ => rfl⟩
    · exact absurd h Bool.false_ne_true
    · cases h
  | append_singleton calls c ih =>
    rw [journal_concat]
    exact ih.step o p c

/-- **Pieces and stretches**: every piece holds the records of its stretch. -/
theorem batches_finished (calls : List Call) :
    List.Forall₂
      (Finished o p ((build o p calls).serializeChanges o p).changedCollections.keys)
      (((build o p calls).batches o p).map Batch.ops) (stretches o p calls) := by
  have h := Logs.journal o p calls
  obtain ⟨done, hs, hdone⟩ := h.split
  obtain ⟨ops, hops, hfin, hkeys⟩ := h.opened.finish o p
  rw [builder_journal] at hs hdone hops hfin hkeys
  have hs' := hs.append hops (BatchBuilder.Quiet.serializeChanges o p _).commitPoints
  rw [batches_ops o p hs']
  exact rel_append (hdone.imp fun _ _ hf => hf.mono o p hkeys) (.cons hfin .nil)

/-! ## What the store holds in the end -/

variable {o p}

theorem Finished.entry_unique (h : Finished o p keys ops records) (ids : UInt32 → ℕ) {id : ℕ}
    {w : List UInt8}
    (hw : ((⟨a, x.toU8, id⟩ : LogKey), w) ∈ (logged Context.start.accountId ops).map (entry ids)) :
    ∃ ch, held none (recordsOf a x records) = some ch ∧ w = ch.serialize o p := by
  obtain ⟨⟨k, y, v⟩, he, heq⟩ := List.mem_map.mp hw
  obtain ⟨hkey, rfl⟩ := Prod.mk.inj heq
  obtain ⟨rfl, hy, -⟩ := LogKey.mk.inj hkey
  obtain rfl : y = .sync x := LogCollection.toU8_injective hy
  exact (h.log _ _ _).mp he

theorem Finished.entry_mem (h : Finished o p keys ops records) (ids : UInt32 → ℕ) {ch : Changes}
    (hch : held none (recordsOf a x records) = some ch) :
    ((⟨a, x.toU8, ids a⟩ : LogKey), ch.serialize o p) ∈
      (logged Context.start.accountId ops).map (entry ids) :=
  List.mem_map.mpr ⟨(a, .sync x, ch.serialize o p), (h.log _ _ _).mpr ⟨ch, hch, rfl⟩, rfl⟩

theorem exists_of_getElem? {α β : Type*} {R : α → β → Prop} {l : List α} {m : List β}
    (h : List.Forall₂ R l m) {i : ℕ} {y : β} (hy : m[i]? = some y) : ∃ x, l[i]? = some x ∧ R x y := by
  induction h generalizing i with
  | nil => cases hy
  | cons hxy _ ih =>
    rcases i with _ | i
    · obtain rfl := some.inj hy
      exact ⟨_, rfl, hxy⟩
    · exact ih hy

section

variable {σ : Type*}
  {write : AssignedIds → Context → Operation → σ → Except Trc.Error (Option Int × σ)}

theorem commitBatches_kept {m : VecMap UInt32 ChangedCollection} (hm : m.isEmpty = false)
    {batches : List Batch} {l : List (List Record)}
    (h : List.Forall₂ (fun x r => x.changes = m ∧ Finished o p m.keys x.ops r) batches l) :
    ∀ {s s' : StoreState σ}, commitBatches write s batches = .ok s' →
      (∀ k : LogKey, k.changeId ≤ s.changeIds k.accountId → s'.logs k = s.logs k) ∧
      ∀ i r, l[i]? = some r → ∀ a x ch, held none (recordsOf a x r) = some ch →
        s'.logs ⟨a, x.toU8, s.changeIds a + i + 1⟩ = some (ch.serialize o p) := by
  induction h with
  | nil =>
    intro s s' hs
    obtain rfl := Except.ok.inj hs
    exact ⟨fun _ _ => rfl, fun i r hr => by cases hr⟩
  | @cons x r batches l hx hrest ih =>
    intro s s' hs
    obtain ⟨rfl, hfin⟩ := hx
    simp only [commitBatches] at hs
    split at hs
    · next ids s₁ hc =>
      obtain ⟨hids, -, hlogs⟩ := commit_logs hm hc
      obtain ⟨hold, hkept⟩ := ih hs
      rw [logWrites_of_anchored _ hfin.anchor] at hlogs
      have hle (a : UInt32) : s.changeIds a ≤ s₁.changeIds a := by
        rw [hids]
        split_ifs
        · exact Nat.le_succ _
        · exact Nat.le_refl _
      refine ⟨?_, ?_⟩
      · intro k hk
        have hnot : k ∉ ((logged Context.start.accountId x.ops).map
            (entry fun a => s.changeIds a + 1)).map Prod.fst := by
          intro hmem
          obtain ⟨⟨k', v⟩, he, rfl⟩ := List.mem_map.mp hmem
          obtain ⟨e, -, he⟩ := List.mem_map.mp he
          obtain ⟨rfl, -⟩ := Prod.mk.inj he
          exact Nat.not_succ_le_self _ hk
        rw [hold k (hk.trans (hle _)), hlogs, putAll_of_notMem hnot]
      · intro i r' hr' a y ch hch
        have hne : recordsOf a y r' ≠ [] := by
          intro hnil
          rw [hnil] at hch
          cases hch
        rcases i with _ | i
        · obtain rfl := some.inj hr'
          have ha := hfin.keys a y hne
          have hid : s₁.changeIds a = s.changeIds a + 1 := by rw [hids, if_pos ha]
          rw [hold ⟨a, y.toU8, s.changeIds a + 0 + 1⟩ (Nat.le_of_eq hid.symm), hlogs]
          refine putAll_of_mem (hfin.entry_mem (fun a => s.changeIds a + 1) hch) ?_ _
          intro w hw
          obtain ⟨ch', hch', rfl⟩ := hfin.entry_unique _ hw
          rw [some.inj (hch.symm.trans hch')]
        · have ha : a ∈ x.changes.keys := by
            obtain ⟨b, -, -, hb⟩ := exists_of_getElem? hrest hr'
            exact hb.keys a y hne
          have hid : s₁.changeIds a = s.changeIds a + 1 := by rw [hids, if_pos ha]
          have hk := hkept i r' hr' a y ch hch
          rw [hid] at hk
          rw [← hk, Nat.add_right_comm (s.changeIds a) 1 i]
          rfl
    · cases hs

theorem logWrites_append (ids : UInt32 → ℕ) (a : UInt32) (id : ℕ) (l m : List Operation) :
    ∃ a' id', logWrites ids a id (l ++ m) = logWrites ids a id l ++ logWrites ids a' id' m := by
  induction l generalizing a id with
  | nil => exact ⟨a, id, rfl⟩
  | cons op l ih =>
    cases op
    case accountId c => exact ih c (ids c)
    case log x v =>
      obtain ⟨a', id', h⟩ := ih a id
      refine ⟨a', id', ?_⟩
      rw [cons_append, logWrites, h]
      rfl
    all_goals exact ih a id

theorem logWrites_flatten (ids : UInt32 → ℕ) {pieces : List (List Operation)}
    (h : ∀ x ∈ pieces, anchored false x) (a : UInt32) (id : ℕ) :
    logWrites ids a id pieces.flatten =
      pieces.flatMap fun x => (logged Context.start.accountId x).map (entry ids) := by
  induction pieces generalizing a id with
  | nil => rfl
  | cons x pieces ih =>
    obtain ⟨a', id', happ⟩ := logWrites_append ids a id x pieces.flatten
    rw [flatten_cons, happ, ih (fun y hy => h y (mem_cons_of_mem _ hy)),
      logWrites_of_anchored ids (h x mem_cons_self), flatMap_cons]

theorem changes_of_mem_batches {b : BatchBuilder} {x : Batch} (h : x ∈ b.batches o p) :
    x.changes = (b.serializeChanges o p).changedCollections := by
  obtain ⟨point, -, rfl⟩ := List.mem_map.mp h
  rfl

theorem ops_buildAll (calls : List Call) :
    ((build o p calls).buildAll o p).ops = (((build o p calls).batches o p).map Batch.ops).flatten := by
  obtain ⟨done, hs⟩ := (Tracks.build o p calls).split
  obtain ⟨l, hl, -⟩ := (BatchBuilder.Quiet.serializeChanges o p (build o p calls)).ops
  have hs' := hs.append hl (BatchBuilder.Quiet.serializeChanges o p _).commitPoints
  rw [batches_ops o p hs']
  show ((build o p calls).serializeChanges o p).ops = _
  rw [hs'.ops]
  simp

theorem isEmpty_of_records {calls : List Call} {i : ℕ} {r : List Record} {a : UInt32}
    {x : SyncCollection} (hr : (stretches o p calls)[i]? = some r) (hne : recordsOf a x r ≠ []) :
    ((build o p calls).serializeChanges o p).changedCollections.isEmpty = false := by
  obtain ⟨ops, -, hfin⟩ := exists_of_getElem? (batches_finished o p calls) hr
  have ha := hfin.keys a x hne
  have hinner := ne_nil_of_mem (List.mem_map.mp ha).choose_spec.1
  exact isEmpty_eq_false_iff.mpr hinner

/-- **The change log of a batch.**  Piece by piece, every record is stored under the change id of its
piece.  As a whole, the record of a collection that is logged in one stretch only is stored under the
change id of the batch.  A record holds every change of its stretch, as what it counts as, that no
later change absorbs. -/
theorem logs_kept (calls : List Call) (s : StoreState σ) :
    (∀ s', commitBatches write s ((build o p calls).batches o p) = .ok s' →
      ∀ i r, (stretches o p calls)[i]? = some r → ∀ a x, recordsOf a x r ≠ [] →
        s'.logs ⟨a, x.toU8, s.changeIds a + i + 1⟩ =
          some ((Changes.ofLog (recordsOf a x r)).serialize o p)) ∧
    (∀ ids s', commit write s ((build o p calls).buildAll o p) = .ok (ids, s') →
      ∀ (i : ℕ) r, (stretches o p calls)[i]? = some r → ∀ a x, recordsOf a x r ≠ [] →
        (∀ (j : ℕ) r', (stretches o p calls)[j]? = some r' → j ≠ i → recordsOf a x r' = []) →
        s'.logs ⟨a, x.toU8, s.changeIds a + 1⟩ =
          some ((Changes.ofLog (recordsOf a x r)).serialize o p)) ∧
    (∀ r ∈ stretches o p calls, ∀ a x before c after, recordsOf a x r = before ++ c :: after →
      (∀ y ∈ after, y.absorbs ((Changes.ofLog before).effective c) = false) →
        (Changes.ofLog (recordsOf a x r)).Records ((Changes.ofLog before).effective c)) := by
  have hfinished := batches_finished o p calls
  refine ⟨?_, ?_, ?_⟩
  · intro s' hs i r hr a x hne
    have hall : List.Forall₂ (fun y r => y.changes =
          ((build o p calls).serializeChanges o p).changedCollections ∧
        Finished o p ((build o p calls).serializeChanges o p).changedCollections.keys y.ops r)
        ((build o p calls).batches o p) (stretches o p calls) := by
      have hmem : ∀ y ∈ (build o p calls).batches o p,
          y.changes = ((build o p calls).serializeChanges o p).changedCollections :=
        fun y hy => changes_of_mem_batches hy
      rw [forall₂_map_left_iff] at hfinished
      exact (forall₂_and_left _ _).mpr ⟨hmem, hfinished⟩
    have hch : held none (recordsOf a x r) = some (.ofLog (recordsOf a x r)) := by
      rw [held_none, if_neg hne]
    exact (commitBatches_kept (isEmpty_of_records hr hne) hall hs).2 i r hr a x _ hch
  · intro ids s' hs i r hr a x hne huniq
    have hch : held none (recordsOf a x r) = some (.ofLog (recordsOf a x r)) := by
      rw [held_none, if_neg hne]
    obtain ⟨-, -, hlogs⟩ := commit_logs (isEmpty_of_records hr hne) hs
    have hpiece : ∀ y ∈ ((build o p calls).batches o p).map Batch.ops, ∃ (j : ℕ) (r' : _),
        (stretches o p calls)[j]? = some r' ∧ Finished o p
          ((build o p calls).serializeChanges o p).changedCollections.keys y r' := by
      intro y hy
      obtain ⟨j, hj⟩ := mem_iff_getElem?.mp hy
      exact ⟨j, exists_of_getElem? hfinished.flip hj⟩
    have hanch : ∀ y ∈ ((build o p calls).batches o p).map Batch.ops, anchored false y := by
      intro y hy
      obtain ⟨j, r', -, hfin⟩ := hpiece y hy
      exact hfin.anchor
    rw [ops_buildAll, logWrites_flatten _ hanch] at hlogs
    rw [hlogs]
    obtain ⟨ops, hops, hfin⟩ := exists_of_getElem? hfinished hr
    refine putAll_of_mem ?_ ?_ _
    · exact mem_flatMap.mpr ⟨ops, mem_of_getElem? hops, hfin.entry_mem _ hch⟩
    · intro w hw
      obtain ⟨ops', hops', hw⟩ := mem_flatMap.mp hw
      obtain ⟨j, r', hj, hfin'⟩ := hpiece ops' hops'
      obtain ⟨ch', hch', rfl⟩ := hfin'.entry_unique _ hw
      have hji : j = i := by
        by_contra hne'
        rw [huniq j r' hj hne'] at hch'
        cases hch'
      subst hji
      obtain rfl := some.inj (hr.symm.trans hj)
      rw [some.inj (hch.symm.trans hch')]
  · intro r _ a x before c after heq habs
    rw [heq]
    exact Changes.records_ofLog before after c habs

end

end

section

/-- A write that leaves the values alone. -/
def writeNothing (_ : AssignedIds) (_ : Context) (_ : Operation) (v : Unit) :
    Except Trc.Error (Option Int × Unit) := .ok (none, v)

def emptyStore : StoreState Unit := ⟨(), fun _ => 0, fun _ => none⟩

/-- An item is updated and then deleted. -/
def updateThenDelete : List Call :=
  [.withAccountId 1, .withDocument 7, .logItemUpdate .email none, .logItemDelete .email none]

theorem logs_kept_at : ∃ s', commitBatches writeNothing emptyStore
      ((build .u32 .u64 updateThenDelete).batches .u32 .u64) = .ok s' ∧
    s'.logs ⟨1, 0, 1⟩ =
      some ((Changes.ofLog [.updateItem 7, .deleteItem 7]).serialize .u32 .u64) :=
  ⟨_, rfl, (@logs_kept .u32 .u64 Unit writeNothing updateThenDelete emptyStore).1 _ rfl 0 _
    rfl 1 .email (cons_ne_nil _ _)⟩

/-- The update is announced and not in the entry that is stored. -/
theorem logs_drop_update : ∃ s', commitBatches writeNothing emptyStore
      ((build .u32 .u64 updateThenDelete).batches .u32 .u64) = .ok s' ∧
    (∃ r ∈ stretches .u32 .u64 updateThenDelete, (1, .email, .updateItem 7) ∈ r) ∧
    ∃ c : Changes, s'.logs ⟨1, 0, 1⟩ = some (c.serialize .u32 .u64) ∧ ¬ c.Records (.updateItem 7) :=
  ⟨_, rfl, ⟨_, mem_singleton.mpr rfl, mem_cons_self⟩,
    .ofLog [.updateItem 7, .deleteItem 7], rfl, by
      show (7 : UInt64) ∉ (Changes.ofLog [.updateItem 7, .deleteItem 7]).itemUpdates
      decide⟩

end

end MailServer.Store.Write
