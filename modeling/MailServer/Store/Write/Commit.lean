import MailServer.Store.Write.Batch

/-!
# Committing a batch (`store/src/backend/rocksdb/write.rs`)

The write loop of a transaction: it starts without a context, follows the context operations, and
addresses every other operation by the account, collection and document it has seen last.  What a
value operation does to the values it addresses is left open (`write`), but for the counter id it may
return; the change ids and the change log are followed in full.

* `commit`: one transaction.
* `commitBatches`: a piecewise commit (`Server::commit_batch`).
* `commit_values`: a commit writes the applied operations, in order.
-/

namespace MailServer.Store.Write

open MailServer.Types MailServer.Utils

/-- The context of the write loop. -/
structure Context where
  accountId : UInt32
  collection : UInt8
  documentId : UInt32
  deriving DecidableEq

def Context.start : Context := ⟨0xFFFFFFFF, 0xFF, 0xFFFFFFFF⟩

/-- `LogKey`. -/
structure LogKey where
  accountId : UInt32
  collection : UInt8
  changeId : ℕ
  deriving DecidableEq

/-- The store: its values, the last change id of every account (`ValueClass::ChangeId`, 0 when absent)
and the change log. -/
structure StoreState (σ : Type*) where
  values : σ
  changeIds : UInt32 → ℕ
  logs : LogKey → Option (List UInt8)

namespace AssignedIds

/-- `push_counter_id`, when there is one. -/
def pushCounterId (r : AssignedIds) (counter : Option Int) : AssignedIds :=
  { r with ids := r.ids ++ (counter.map AssignedId.counter).toList }

def pushChangeId (r : AssignedIds) (accountId : UInt32) (changeId : ℕ) : AssignedIds :=
  { r with ids := r.ids ++ [.changeId accountId changeId] }

/-- The change id of an entry, when it is one of the account. -/
def changeIdOf (accountId : UInt32) : AssignedId → Option ℕ
  | .changeId a id => if a = accountId then some id else none
  | .counter _ => none

def lastChangeId (r : AssignedIds) (accountId : UInt32) : Except Trc.Error ℕ :=
  match (r.ids.filterMap (changeIdOf accountId)).getLast? with
  | some id => .ok id
  | none => .error ⟨.unexpectedError, "No change ids were created"⟩

def setCurrentChangeId (r : AssignedIds) (accountId : UInt32) : Except Trc.Error (ℕ × AssignedIds) :=
  match r.lastChangeId accountId with
  | .ok id => .ok (id, { r with currentChangeId := some id })
  | .error e => .error e

end AssignedIds

/-- The operations that address a value or an index entry. -/
def Operation.isKeyed : Operation → Bool
  | .assertValue _ _ | .value _ _ | .index _ _ _ => true
  | _ => false

/-- What an operation changes in the context. -/
def Context.step (c : Context) : Operation → Context
  | .accountId a => { c with accountId := a }
  | .collection x => { c with collection := x.toU8 }
  | .documentId d => { c with documentId := d }
  | _ => c

/-- The write loop between two operations. -/
structure Txn (σ : Type*) where
  context : Context
  changeId : ℕ
  result : AssignedIds
  store : StoreState σ

section

variable {σ : Type*}
  (write : AssignedIds → Context → Operation → σ → Except Trc.Error (Option Int × σ))

namespace Txn

def step (hasChanges : Bool) (t : Txn σ) (op : Operation) : Except Trc.Error (Txn σ) :=
  match op with
  | .accountId a =>
    let t := { t with context := t.context.step op }
    if hasChanges then
      match t.result.setCurrentChangeId a with
      | .ok (id, result) => .ok { t with changeId := id, result := result }
      | .error e => .error e
    else .ok t
  | .collection _ | .documentId _ => .ok { t with context := t.context.step op }
  | .assertValue _ _ | .value _ _ | .index _ _ _ =>
    match write t.result t.context op t.store.values with
    | .ok (counter, values) =>
      .ok { t with
        result := t.result.pushCounterId counter
        store := { t.store with values := values } }
    | .error e => .error e
  | .log collection value =>
    .ok { t with
      store := { t.store with
        logs := Function.update t.store.logs ⟨t.context.accountId, collection.toU8, t.changeId⟩
          (some value) } }

def run (hasChanges : Bool) : Txn σ → List Operation → Except Trc.Error (Txn σ)
  | t, [] => .ok t
  | t, op :: ops =>
    match t.step write hasChanges op with
    | .ok t' => run hasChanges t' ops
    | .error e => .error e

end Txn

/-- A new change id for an account. -/
def assignChangeId (r : AssignedIds × StoreState σ) (accountId : UInt32) : AssignedIds × StoreState σ :=
  let id := r.2.changeIds accountId + 1
  (r.1.pushChangeId accountId id,
    { r.2 with changeIds := Function.update r.2.changeIds accountId id })

/-- `RocksDBTransaction::commit`. -/
def commit (s : StoreState σ) (batch : Batch) : Except Trc.Error (AssignedIds × StoreState σ) :=
  let (result, s) := batch.changes.keys.foldl assignChangeId (default, s)
  match Txn.run write (!batch.changes.isEmpty) ⟨.start, 0, result, s⟩ batch.ops with
  | .ok t => .ok (t.result, t.store)
  | .error e => .error e

/-- `Server::commit_batch`: the batches one after the other, up to the first that fails. -/
def commitBatches (s : StoreState σ) : List Batch → Except Trc.Error (StoreState σ)
  | [] => .ok s
  | batch :: batches =>
    match commit write s batch with
    | .ok (_, s') => commitBatches s' batches
    | .error e => .error e

end

/-! ## The operations a batch applies -/

def Context.run (c : Context) (ops : List Operation) : Context := ops.foldl step c

/-- The keyed operations under the context the loop has for them. -/
def applied : Context → List Operation → List (Context × Operation)
  | _, [] => []
  | c, op :: ops => if op.isKeyed then (c, op) :: applied c ops else applied (c.step op) ops

theorem Context.run_append (c : Context) (l m : List Operation) :
    c.run (l ++ m) = (c.run l).run m := by
  simp [run]

theorem Context.step_of_isKeyed {op : Operation} (h : op.isKeyed) (c : Context) : c.step op = c := by
  cases op
  case assertValue | value | index => rfl
  all_goals exact Bool.noConfusion h

theorem applied_append (c : Context) (l m : List Operation) :
    applied c (l ++ m) = applied c l ++ applied (c.run l) m := by
  induction l generalizing c with
  | nil => rfl
  | cons op l ih =>
    rw [List.cons_append, applied, applied]
    by_cases h : op.isKeyed
    · have hrun : c.run (op :: l) = c.run l := by
        show Context.run (c.step op) l = c.run l
        rw [Context.step_of_isKeyed h]
      rw [if_pos h, if_pos h, ih, hrun, List.cons_append]
    · rw [if_neg h, if_neg h, ih]
      rfl

theorem applied_of_not_keyed {l : List Operation} (h : ∀ op ∈ l, op.isKeyed = false) (c : Context) :
    applied c l = [] := by
  induction l generalizing c with
  | nil => rfl
  | cons op l ih =>
    have hop := h op List.mem_cons_self
    rw [applied, if_neg (by simp [hop])]
    exact ih (fun x hx => h x (List.mem_cons_of_mem _ hx)) _

section

variable {σ : Type*}
  {write : AssignedIds → Context → Operation → σ → Except Trc.Error (Option Int × σ)}

/-- The writes of a list of addressed operations, whatever ids the values see. -/
inductive Writes (write : AssignedIds → Context → Operation → σ → Except Trc.Error (Option Int × σ)) :
    σ → List (Context × Operation) → σ → Prop
  | nil (v : σ) : Writes write v [] v
  | cons {v v' w : σ} {r : AssignedIds} {n : Option Int} {c : Context} {op : Operation}
    {l : List (Context × Operation)} (h : write r c op v = .ok (n, v')) (hl : Writes write v' l w) :
    Writes write v ((c, op) :: l) w

theorem Txn.step_writes {hasChanges : Bool} {t t' : Txn σ} {op : Operation}
    (h : t.step write hasChanges op = .ok t') :
    t'.context = t.context.step op ∧ Writes write t.store.values (applied t.context [op]) t'.store.values := by
  cases op
  case accountId a =>
    simp only [Txn.step] at h
    split_ifs at h
    · split at h
      · obtain rfl := Except.ok.inj h
        exact ⟨rfl, .nil _⟩
      · cases h
    · obtain rfl := Except.ok.inj h
      exact ⟨rfl, .nil _⟩
  case collection | documentId | log =>
    obtain rfl := Except.ok.inj h
    exact ⟨rfl, .nil _⟩
  all_goals
    simp only [Txn.step] at h
    split at h
    · next hw =>
      obtain rfl := Except.ok.inj h
      exact ⟨rfl, .cons hw (.nil _)⟩
    · cases h

theorem Writes.append {v w x : σ} {l m : List (Context × Operation)} (hl : Writes write v l w)
    (hm : Writes write w m x) : Writes write v (l ++ m) x := by
  induction hl with
  | nil => exact hm
  | cons h _ ih => exact .cons h (ih hm)

theorem Txn.run_writes {hasChanges : Bool} {ops : List Operation} :
    ∀ {t t' : Txn σ}, t.run write hasChanges ops = .ok t' →
      Writes write t.store.values (applied t.context ops) t'.store.values := by
  induction ops with
  | nil =>
    intro t t' h
    obtain rfl := Except.ok.inj h
    exact .nil _
  | cons op ops ih =>
    intro t t' h
    simp only [Txn.run] at h
    split at h
    · next t₁ hstep =>
      obtain ⟨hcontext, hwrites⟩ := Txn.step_writes hstep
      have hrest := ih h
      rw [hcontext] at hrest
      rw [← List.singleton_append, applied_append]
      exact hwrites.append hrest
    · cases h

theorem values_assignChangeIds (keys : List UInt32) (r : AssignedIds × StoreState σ) :
    (keys.foldl assignChangeId r).2.values = r.2.values := by
  induction keys generalizing r with
  | nil => rfl
  | cons a keys ih => exact ih _

/-- **A commit** writes the applied operations of its batch, in order. -/
theorem commit_values {s s' : StoreState σ} {batch : Batch} {r : AssignedIds}
    (h : commit write s batch = .ok (r, s')) :
    Writes write s.values (applied .start batch.ops) s'.values := by
  simp only [commit] at h
  split at h
  · next t hrun =>
    obtain ⟨rfl, rfl⟩ := Prod.mk.inj (Except.ok.inj h)
    have hw := Txn.run_writes hrun
    rwa [values_assignChangeIds] at hw
  · cases h

theorem commitBatches_values {batches : List Batch} :
    ∀ {s s' : StoreState σ}, commitBatches write s batches = .ok s' →
      Writes write s.values (batches.flatMap fun b => applied .start b.ops) s'.values := by
  induction batches with
  | nil =>
    intro s s' h
    obtain rfl := Except.ok.inj h
    exact .nil _
  | cons b batches ih =>
    intro s s' h
    simp only [commitBatches] at h
    split at h
    · next hb => exact (commit_values hb).append (ih h)
    · cases h

theorem commitBatches_pieces : Writes (fun _ c _ l => .ok (none, l ++ [c])) []
    (([⟨.empty, [.accountId 7, .index 0 [] true]⟩, ⟨.empty, [.index 0 [] true]⟩] : List Batch).flatMap fun b =>
      applied .start b.ops) [⟨7, 0xFF, 0xFFFFFFFF⟩, .start] :=
  @commitBatches_values _ _ _ ⟨[], fun _ => 0, fun _ => none⟩ ⟨_, fun _ => 0, fun _ => none⟩ rfl

end

end MailServer.Store.Write
