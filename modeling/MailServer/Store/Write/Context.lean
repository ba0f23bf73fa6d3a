import MailServer.Store.Write.Commit

/-!
# The context of a batch

The builder caches its context and the write loop starts every piece without one.  A keyed operation
is *declared* under what the `with_` calls before it say, and *executed* under what the write loop has
seen in its piece.

* `Declaration`, `declared`: the operations of a list of calls under their declared context.
* `executed_eq_declared_iff`: when the two agree.
-/

namespace MailServer.Store.Write

open MailServer.Types MailServer.Utils List BatchBuilder Context

/-- What the `with_` calls so far have declared. -/
structure Declaration where
  accountId : Option UInt32
  collection : Option Collection
  documentId : Option UInt32
  deriving DecidableEq

namespace Declaration

def start : Declaration := ⟨none, none, none⟩

def step (d : Declaration) : Call → Declaration
  | .withAccountId a => { d with accountId := some a }
  | .withCollection c => { d with collection := some c }
  | .withDocument i => { d with documentId := some i }
  | _ => d

def context (d : Declaration) : Context where
  accountId := d.accountId.getD Context.start.accountId
  collection := (d.collection.map Collection.toU8).getD Context.start.collection
  documentId := d.documentId.getD Context.start.documentId

end Declaration

/-- The keyed operations of a call. -/
def Call.keyed : Call → List Operation
  | .assertValue c v => [.assertValue c v]
  | .index f v => [.index f v true]
  | .unindex f v => [.index f v false]
  | .tag f => [.index f [] true]
  | .untag f => [.index f [] false]
  | .add c v => [.value c (.atomicAdd v)]
  | .addAndGet c v => [.value c (.addAndGet v)]
  | .set c v => [.value c (.set v)]
  | .setFnc c f => [.value c (.setFnc f)]
  | .mergeFnc c f => [.value c (.mergeFnc f)]
  | .clear c => [.value c .clear]
  | .aclGrant a v => [.value (.acl a) (.set v)]
  | .aclRevoke a => [.value (.acl a) .clear]
  | .anyOp c op => [.value c op]
  | .scheduleTaskWithId i u t y =>
    [.value (.taskQueue (.task i)) (.set t), .value (.taskQueue (.due i u)) (.set y)]
  | .logShareNotification n a v => [.value (.shareNotification n a) (.set v)]
  | _ => []

theorem Call.isKeyed_of_mem {c : Call} {op : Operation} (h : op ∈ c.keyed) : op.isKeyed := by
  cases c <;> simp [keyed] at h
  case scheduleTaskWithId =>
    rcases h with rfl | rfl
    · rfl
    · rfl
  all_goals
    subst h
    rfl

def declaration (calls : List Call) : Declaration := calls.foldl Declaration.step .start

/-- The keyed operations of a list of calls, each under the context declared before it. -/
def declaredFrom : Declaration → List Call → List (Context × Operation)
  | _, [] => []
  | d, c :: calls => c.keyed.map (Prod.mk d.context) ++ declaredFrom (d.step c) calls

def declared (calls : List Call) : List (Context × Operation) := declaredFrom .start calls

theorem declaration_concat (calls : List Call) (c : Call) :
    declaration (calls ++ [c]) = (declaration calls).step c := by
  simp [declaration]

theorem declaredFrom_concat (d : Declaration) (calls : List Call) (c : Call) :
    declaredFrom d (calls ++ [c]) =
      declaredFrom d calls ++ c.keyed.map (Prod.mk (calls.foldl Declaration.step d).context) := by
  induction calls generalizing d with
  | nil => simp [declaredFrom]
  | cons c' calls ih => simp [declaredFrom, ih]

theorem declared_concat (calls : List Call) (c : Call) :
    declared (calls ++ [c]) = declared calls ++ c.keyed.map (Prod.mk (declaration calls).context) :=
  declaredFrom_concat .start calls c

/-- The log operations of one account. -/
def accountLog (o : HashOrder UInt32) (p : HashOrder UInt64) (r : UInt32 × ChangeLogBuilder) : List (LogCollection × List UInt8) :=
  r.2.changes.inner.map (fun x => (.sync x.1, x.2.serialize o p)) ++
    r.2.vanished.inner.map fun x => (.vanished x.1, VanishedItems.serialize x.2)

def logOperation (e : LogCollection × List UInt8) : Operation := .log e.1 e.2

/-! ## What a call does to the builder -/

namespace BatchBuilder

/-- The cached context. -/
def cached (b : BatchBuilder) : Declaration :=
  ⟨b.currentAccountId, b.currentCollection, b.currentDocumentId⟩

/-- The operations of a call that is not a commit point: the cache elides a repeated context. -/
def emits (b : BatchBuilder) : Call → List Operation
  | .withAccountId a => if b.currentAccountId = some a then [] else [.accountId a]
  | .withCollection c => if b.currentCollection = some c then [] else [.collection c]
  | .withDocument d => [.documentId d]
  | c => c.keyed

/-- Where the current piece starts. -/
def cut (b : BatchBuilder) : ℕ := b.commitPoints.getLast?.getD 0

/-- The piece under construction. -/
def piece (b : BatchBuilder) : List Operation := b.ops.drop b.cut

@[simp] theorem ops_logWith (b : BatchBuilder) (f : ChangeLogBuilder → ChangeLogBuilder) :
    (b.logWith f).ops = b.ops ∧ (b.logWith f).commitPoints = b.commitPoints ∧
      (b.logWith f).cached = b.cached := by
  unfold logWith
  split <;> simp [cached]

@[simp] theorem ops_logDocument (b : BatchBuilder)
    (f : UInt32 → ChangeLogBuilder → ChangeLogBuilder) :
    (b.logDocument f).ops = b.ops ∧ (b.logDocument f).commitPoints = b.commitPoints ∧
      (b.logDocument f).cached = b.cached := by
  unfold logDocument
  split
  · exact b.ops_logWith _
  · exact ⟨rfl, rfl, rfl⟩

end BatchBuilder

section

variable (o : HashOrder UInt32) (p : HashOrder UInt64)

namespace BatchBuilder

theorem call_spec (b : BatchBuilder) {c : Call} (hc : c ≠ .commitPoint) :
    (b.call o p c).ops = b.ops ++ b.emits c ∧ (b.call o p c).commitPoints = b.commitPoints ∧
      (b.call o p c).cached = b.cached.step c := by
  cases c
  case commitPoint => exact absurd rfl hc
  case withAccountId a =>
    simp only [call, withAccountId, emits]
    split_ifs with h
    · simp [cached, Declaration.step, h]
    · exact ⟨rfl, rfl, rfl⟩
  case withCollection x =>
    simp only [call, withCollection, emits]
    split_ifs with h
    · simp [cached, Declaration.step, h]
    · exact ⟨rfl, rfl, rfl⟩
  case logVanishedItem x i =>
    simp only [call, logVanishedItem, emits, Call.keyed, append_nil]
    split
    · exact ops_logWith _ _
    · exact ⟨rfl, rfl, rfl⟩
  case logItemInsert | logItemUpdate | logItemDelete | logContainerInsert | logContainerUpdate
      | logContainerDelete =>
    simp only [emits, Call.keyed, append_nil]
    exact ops_logDocument _ _
  case logContainerPropertyChange =>
    simp only [emits, Call.keyed, append_nil]
    exact ops_logWith _ _
  case scheduleTaskWithId =>
    refine ⟨?_, rfl, rfl⟩
    simp [call, scheduleTaskWithId, set, push, emits, Call.keyed]
  all_goals exact ⟨rfl, rfl, rfl⟩

theorem call_unkeyed (b : BatchBuilder) {c : Call} (hk : c.keyed = []) (hc : c ≠ .commitPoint) :
    (b.call o p c).changedCollections = b.changedCollections ∧ (b.call o p c).batchOps = b.batchOps := by
  have hwith (b : BatchBuilder) (f : ChangeLogBuilder → ChangeLogBuilder) :
      (b.logWith f).changedCollections = b.changedCollections ∧ (b.logWith f).batchOps = b.batchOps := by
    unfold logWith
    split <;> exact ⟨rfl, rfl⟩
  have hdoc (f : UInt32 → ChangeLogBuilder → ChangeLogBuilder) :
      (b.logDocument f).changedCollections = b.changedCollections ∧ (b.logDocument f).batchOps = b.batchOps := by
    unfold logDocument
    split
    · exact hwith b _
    · exact ⟨rfl, rfl⟩
  cases c
  case commitPoint => exact absurd rfl hc
  case withAccountId a =>
    simp only [call, withAccountId]
    split_ifs <;> exact ⟨rfl, rfl⟩
  case withCollection x =>
    simp only [call, withCollection]
    split_ifs <;> exact ⟨rfl, rfl⟩
  case withDocument => exact ⟨rfl, rfl⟩
  case logVanishedItem x i =>
    simp only [call, logVanishedItem]
    split
    · exact hwith _ _
    · exact ⟨rfl, rfl⟩
  case logContainerPropertyChange => exact hwith _ _
  case logItemInsert | logItemUpdate | logItemDelete | logContainerInsert | logContainerUpdate
      | logContainerDelete => exact hdoc _
  all_goals cases hk

theorem serializeAccount_eq (b : BatchBuilder) (r : UInt32 × ChangeLogBuilder) :
    ∃ cc, b.serializeAccount o p r =
      { b.withAccountId r.1 with
        changedCollections := cc
        ops := (b.withAccountId r.1).ops ++ (accountLog o p r).map logOperation } := by
  have hsync (l : List (SyncCollection × Changes)) (b : BatchBuilder) :
      ∃ cc, l.foldl (serializeSync o p r.1) b = { b with
        changedCollections := cc
        ops := b.ops ++ (l.map fun x => (LogCollection.sync x.1, x.2.serialize o p)).map logOperation } := by
    induction l generalizing b with
    | nil => exact ⟨b.changedCollections, by simp⟩
    | cons x l ih =>
      obtain ⟨cc, hcc⟩ := ih (serializeSync o p r.1 b x)
      exact ⟨cc, by rw [foldl_cons, hcc]; simp [serializeSync, logOperation]⟩
  have hvanished (l : List (VanishedCollection × VanishedItems)) (b : BatchBuilder) :
      l.foldl serializeVanished b = { b with
        ops := b.ops ++ (l.map fun x => (LogCollection.vanished x.1, x.2.serialize)).map logOperation } := by
    induction l generalizing b with
    | nil => simp
    | cons x l ih => simp [ih, serializeVanished, logOperation]
  obtain ⟨cc, hcc⟩ := hsync r.2.changes.inner (b.withAccountId r.1)
  exact ⟨cc, by simp [serializeAccount, hcc, hvanished, accountLog]⟩

theorem changes_withAccountId (b : BatchBuilder) (a : UInt32) : (b.withAccountId a).changes = b.changes := by
  unfold withAccountId
  split_ifs <;> rfl

/-- `b'` comes from `b` by operations that name accounts and write logs. -/
structure Quiet (b b' : BatchBuilder) : Prop where
  ops : ∃ l, b'.ops = b.ops ++ l ∧ (∀ op ∈ l, op.isKeyed = false) ∧
    ∀ c : Context, c.accountId = b.cached.context.accountId →
      c.run l = { c with accountId := b'.cached.context.accountId }
  commitPoints : b'.commitPoints = b.commitPoints
  currentCollection : b'.currentCollection = b.currentCollection
  currentDocumentId : b'.currentDocumentId = b.currentDocumentId

namespace Quiet

theorem refl (b : BatchBuilder) : Quiet b b :=
  ⟨⟨[], by simp, by simp, fun c hc => by simp [run, ← hc]⟩, rfl, rfl, rfl⟩

theorem trans {b b' b'' : BatchBuilder} (h : Quiet b b') (h' : Quiet b' b'') : Quiet b b'' := by
  obtain ⟨⟨l, hl, hk, hrun⟩, hp, hc, hd⟩ := h
  obtain ⟨⟨l', hl', hk', hrun'⟩, hp', hc', hd'⟩ := h'
  refine ⟨⟨l ++ l', by rw [hl', hl, append_assoc], ?_, ?_⟩, hp'.trans hp, hc'.trans hc,
    hd'.trans hd⟩
  · intro op hop
    rcases mem_append.mp hop with hop | hop
    · exact hk op hop
    · exact hk' op hop
  · intro c hc
    rw [run_append, hrun c hc]
    exact hrun' _ rfl

theorem foldl {α : Type*} {f : BatchBuilder → α → BatchBuilder} (hf : ∀ b x, Quiet b (f b x))
    (l : List α) (b : BatchBuilder) : Quiet b (l.foldl f b) := by
  induction l generalizing b with
  | nil => exact refl b
  | cons x l ih => exact (hf b x).trans (ih _)

theorem withAccountId (b : BatchBuilder) (a : UInt32) : Quiet b (b.withAccountId a) := by
  unfold BatchBuilder.withAccountId
  split_ifs
  · exact refl b
  · refine ⟨⟨[.accountId a], rfl, ?_, fun c _ => rfl⟩, rfl, rfl, rfl⟩
    intro op hop
    rw [mem_singleton.mp hop]
    rfl

theorem log {b b' : BatchBuilder} (collection : LogCollection) (value : List UInt8)
    (hops : b'.ops = b.ops ++ [.log collection value]) (hp : b'.commitPoints = b.commitPoints)
    (hc : b'.cached = b.cached) : Quiet b b' := by
  have hacc := congrArg Declaration.collection hc
  have hdoc := congrArg Declaration.documentId hc
  refine ⟨⟨_, hops, ?_, ?_⟩, hp, hacc, hdoc⟩
  · intro op hop
    rw [mem_singleton.mp hop]
    rfl
  · intro c h
    rw [hc, ← h]
    rfl

theorem serializeAccount (b : BatchBuilder) (r : UInt32 × ChangeLogBuilder) :
    Quiet b (b.serializeAccount o p r) :=
  ((withAccountId b r.1).trans
    (foldl (f := serializeSync o p r.1)
      (fun _ r => log (.sync r.1) (r.2.serialize o p) rfl rfl rfl) r.2.changes.inner _)).trans
    (foldl (f := serializeVanished)
      (fun _ r => log (.vanished r.1) r.2.serialize rfl rfl rfl) r.2.vanished.inner _)

theorem serializeChanges (b : BatchBuilder) : Quiet b (b.serializeChanges o p) := by
  unfold BatchBuilder.serializeChanges
  split_ifs
  · exact refl b
  · have hstart : Quiet b { b with changes := .empty } := by
      refine ⟨⟨[], by simp, by simp, fun c hc => ?_⟩, rfl, rfl, rfl⟩
      show c = { c with accountId := b.cached.context.accountId }
      rw [← hc]
    exact hstart.trans (foldl (serializeAccount o p) _ _)

end Quiet

/-! ## Pieces -/

/-- The offsets at which the pieces of a list end. -/
def ends : ℕ → List (List Operation) → List ℕ
  | _, [] => []
  | start, l :: ls => (start + l.length) :: ends (start + l.length) ls

/-- The list of operations is cut into finished pieces and the one under construction. -/
structure Split (b : BatchBuilder) (done : List (List Operation)) (cur : List Operation) : Prop where
  ops : b.ops = done.flatten ++ cur
  commitPoints : b.commitPoints = ends 0 done

theorem ends_concat (start : ℕ) (done : List (List Operation)) (l : List Operation) :
    ends start (done ++ [l]) = ends start done ++ [start + done.flatten.length + l.length] := by
  induction done generalizing start with
  | nil => simp [ends]
  | cons d done ih => simp [ends, ih, Nat.add_assoc]

theorem getLast?_ends (done : List (List Operation)) :
    (ends 0 done).getLast?.getD 0 = done.flatten.length := by
  rcases eq_nil_or_concat done with rfl | ⟨d, l, rfl⟩
  · rfl
  · simp [ends_concat]

namespace Split

variable {b b' : BatchBuilder} {done : List (List Operation)} {cur l : List Operation}

theorem piece_eq (h : Split b done cur) : b.piece = cur := by
  rw [piece, cut, h.commitPoints, getLast?_ends, h.ops, drop_left]

theorem append (h : Split b done cur) (hops : b'.ops = b.ops ++ l)
    (hp : b'.commitPoints = b.commitPoints) : Split b' done (cur ++ l) :=
  ⟨by rw [hops, h.ops, append_assoc], by rw [hp, h.commitPoints]⟩

theorem commit (h : Split b done cur) (hb : b.isLargeBatch) (hops : (b.serializeChanges o p).ops = b.ops ++ l) :
    Split (b.commitPoint o p) (done ++ [cur ++ l]) (b.serializeChanges o p).contextOps := by
  have hq := Quiet.serializeChanges o p b
  unfold commitPoint
  rw [if_pos hb]
  refine ⟨?_, ?_⟩
  · show (b.serializeChanges o p).ops ++ (b.serializeChanges o p).contextOps = _
    rw [hops, h.ops]
    simp
  · show (b.serializeChanges o p).commitPoints ++ [(b.serializeChanges o p).ops.length] = _
    rw [hq.commitPoints, h.commitPoints, ends_concat, hops, h.ops]
    simp

end Split

variable {cur : List Operation} {done : List (List Operation)}

theorem slices_eq (b : BatchBuilder) :
    ∀ (done : List (List Operation)) (pre : List Operation), b.ops = pre ++ (done.flatten ++ cur) →
      (iterCommitPoints b.ops.length pre.length (ends pre.length done)).map (fun x => (b.buildOne x).ops) =
        done ++ [cur] := by
  intro done
  induction done with
  | nil =>
    intro pre h
    simp only [ends, iterCommitPoints, buildOne, h, flatten_nil, nil_append, map_cons,
      map_nil]
    rw [take_length, drop_left]
  | cons d done ih =>
    intro pre h
    have hrest := ih (pre ++ d) (by rw [h]; simp)
    rw [length_append] at hrest
    rw [ends, iterCommitPoints, map_cons, hrest]
    have htake : (b.buildOne ⟨pre.length, pre.length + d.length⟩).ops = d := by
      have hops : b.ops = (pre ++ d) ++ (done.flatten ++ cur) := by rw [h]; simp
      rw [buildOne, hops, ← length_append, take_left, drop_left]
    rw [htake]
    rfl

theorem batches_ops {b : BatchBuilder} (h : Split (b.serializeChanges o p) done cur) :
    (b.batches o p).map Batch.ops = done ++ [cur] := by
  have hops : (b.iter o p).1.ops = done.flatten ++ cur := h.ops
  have hs := slices_eq (b.iter o p).1 done [] hops
  rw [batches, map_map]
  have hpoints : (b.iter o p).2 = iterCommitPoints (b.iter o p).1.ops.length 0 (ends 0 done) := by
    show iterCommitPoints _ 0 (b.serializeChanges o p).commitPoints = _
    rw [h.commitPoints]
    rfl
  rw [hpoints]
  exact hs

/-- The keyed operations that a piecewise commit applies. -/
def executed (b : BatchBuilder) : List (Context × Operation) :=
  (b.batches o p).flatMap fun x => applied .start x.ops

theorem executed_eq {b : BatchBuilder}
    (h : Split b done cur) : b.executed o p = (done ++ [cur]).flatMap (applied .start) := by
  obtain ⟨l, hl, hk, -⟩ := (Quiet.serializeChanges o p b).ops
  have hsplit := h.append hl (Quiet.serializeChanges o p b).commitPoints
  have hb := batches_ops o p hsplit
  have hmap : b.executed o p = ((b.batches o p).map Batch.ops).flatMap (applied .start) := by
    rw [executed, flatMap_map]
  rw [hmap, hb, flatMap_append, flatMap_append, flatMap_singleton,
    flatMap_singleton, applied_append, applied_of_not_keyed hk, append_nil]

end BatchBuilder

/-! ## Every reachable builder -/

/-- The builder was cut where the calls asked for it; the write loop at the end of the current piece
has the cached account and collection, and the cached document if the piece names it. -/
structure Tracks (b : BatchBuilder) (seen : Bool) : Prop where
  split : ∃ done, BatchBuilder.Split b done b.piece
  accountId : (start.run b.piece).accountId = b.cached.context.accountId
  collection : (start.run b.piece).collection = b.cached.context.collection
  documentId : (start.run b.piece).documentId =
    if seen then b.cached.context.documentId else start.documentId

/-- Whether a document was declared since the last cut. -/
def seenStep (b : BatchBuilder) (seen : Bool) : Call → Bool
  | .withDocument _ => true
  | .commitPoint => if b.isLargeBatch then false else seen
  | _ => seen

def scan (s : BatchBuilder × Bool) (c : Call) : BatchBuilder × Bool :=
  (s.1.call o p c, seenStep s.1 s.2 c)

/-- A document was declared after the last commit point that took effect. -/
def documentDeclared (calls : List Call) : Bool := (calls.foldl (scan o p) (.new, false)).2

theorem scan_fst (calls : List Call) (s : BatchBuilder × Bool) :
    (calls.foldl (scan o p) s).1 = calls.foldl (call o p) s.1 := by
  induction calls generalizing s with
  | nil => rfl
  | cons c calls ih => exact ih _

theorem documentDeclared_concat (calls : List Call) (c : Call) :
    documentDeclared o p (calls ++ [c]) =
      seenStep (build o p calls) (documentDeclared o p calls) c := by
  simp [documentDeclared, scan, scan_fst, build]

variable {l : List Operation}

theorem run_emits (b : BatchBuilder) (call : Call) (c : Context)
    (ha : c.accountId = b.cached.context.accountId) (hc : c.collection = b.cached.context.collection) :
    (c.run (b.emits call)).accountId = (b.cached.step call).context.accountId ∧
      (c.run (b.emits call)).collection = (b.cached.step call).context.collection := by
  cases call
  case withAccountId a =>
    simp only [emits]
    split_ifs with h
    · have hstep : b.cached.step (.withAccountId a) = b.cached := by
        simp [cached, Declaration.step, h]
      rw [hstep]
      exact ⟨ha, hc⟩
    · exact ⟨rfl, hc⟩
  case withCollection x =>
    simp only [emits]
    split_ifs with h
    · have hstep : b.cached.step (.withCollection x) = b.cached := by
        simp [cached, Declaration.step, h]
      rw [hstep]
      exact ⟨ha, hc⟩
    · exact ⟨ha, rfl⟩
  all_goals
    exact ⟨ha, hc⟩

theorem run_emits_documentId (b : BatchBuilder) {call : Call} (c : Context) (seen : Bool)
    (hcall : call ≠ .commitPoint)
    (hd : c.documentId = if seen then b.cached.context.documentId else start.documentId) :
    (c.run (b.emits call)).documentId =
      if seenStep b seen call then (b.cached.step call).context.documentId
      else start.documentId := by
  cases call
  case commitPoint => exact absurd rfl hcall
  case withAccountId a =>
    have hrun : (c.run (b.emits (.withAccountId a))).documentId = c.documentId := by
      simp only [emits]
      split_ifs <;> rfl
    rw [hrun]
    exact hd
  case withCollection x =>
    have hrun : (c.run (b.emits (.withCollection x))).documentId = c.documentId := by
      simp only [emits]
      split_ifs <;> rfl
    rw [hrun]
    exact hd
  case withDocument => rfl
  all_goals
    exact hd

theorem run_contextOps (b : BatchBuilder) :
    Context.start.run b.contextOps =
      ⟨b.cached.context.accountId, b.cached.context.collection, Context.start.documentId⟩ := by
  obtain ⟨a, c, d, _⟩ := b
  rcases a with _ | a <;> rcases c with _ | c <;> rfl

namespace Tracks

variable {b : BatchBuilder} {seen : Bool}

theorem new : Tracks .new false :=
  ⟨⟨[], rfl, rfl⟩, rfl, rfl, rfl⟩

theorem call (h : Tracks b seen) {c : Call} (hc : c ≠ .commitPoint) :
    Tracks (b.call o p c) (seenStep b seen c) := by
  obtain ⟨hops, hpoints, hcached⟩ := b.call_spec o p hc
  obtain ⟨done, hsplit⟩ := h.split
  have hsplit' := hsplit.append hops hpoints
  have hpiece : (b.call o p c).piece = b.piece ++ b.emits c := hsplit'.piece_eq
  have hrun : start.run (b.call o p c).piece = (start.run b.piece).run (b.emits c) := by
    rw [hpiece, run_append]
  obtain ⟨hacc, hcol⟩ := run_emits b c _ h.accountId h.collection
  refine ⟨⟨done, by rw [hpiece]; exact hsplit'⟩, ?_, ?_, ?_⟩
  · rw [hrun, hcached, hacc]
  · rw [hrun, hcached, hcol]
  · rw [hrun, hcached, run_emits_documentId b _ seen hc h.documentId]

theorem commit (h : Tracks b seen) (hb : b.isLargeBatch) : Tracks (b.commitPoint o p) false := by
  obtain ⟨done, hsplit⟩ := h.split
  obtain ⟨l, hl, -⟩ := (BatchBuilder.Quiet.serializeChanges o p b).ops
  have hsplit' := hsplit.commit o p hb hl
  have hpiece := hsplit'.piece_eq
  have hcached : (b.commitPoint o p).cached = (b.serializeChanges o p).cached := by
    unfold commitPoint
    rw [if_pos hb]
    rfl
  refine ⟨⟨_, by rw [hpiece]; exact hsplit'⟩, ?_, ?_, ?_⟩ <;> rw [hpiece, run_contextOps]
  · rw [hcached]
  · rw [hcached]
  · rfl

theorem commitPoint (h : Tracks b seen) :
    Tracks (b.commitPoint o p) (seenStep b seen .commitPoint) := by
  by_cases hb : b.isLargeBatch
  · simp only [seenStep, if_pos hb]
    exact h.commit o p hb
  · have hsame : b.commitPoint o p = b := by
      unfold BatchBuilder.commitPoint
      rw [if_neg hb]
    simp only [seenStep, if_neg hb]
    rwa [hsame]

theorem build (calls : List Call) : Tracks (build o p calls) (documentDeclared o p calls) := by
  induction calls using List.reverseRecOn with
  | nil => exact new
  | append_singleton calls c ih =>
    rw [build_concat, documentDeclared_concat]
    by_cases hc : c = .commitPoint
    · subst hc
      exact ih.commitPoint o p
    · exact ih.call o p hc

end Tracks

/-! ## Executed and declared operations -/

/-- The context of the write loop at the next operation of a builder. -/
def nextContext (calls : List Call) : Context := start.run (build o p calls).piece

theorem applied_keyed (h : ∀ op ∈ l, op.isKeyed) (c : Context) :
    applied c l = l.map (Prod.mk c) := by
  induction l with
  | nil => rfl
  | cons op l ih =>
    rw [applied, if_pos (h op mem_cons_self), ih fun x hx => h x (mem_cons_of_mem _ hx)]
    rfl

theorem applied_emits (b : BatchBuilder) (call : Call) (c : Context) :
    applied c (b.emits call) = call.keyed.map (Prod.mk c) := by
  cases call
  case withAccountId a =>
    simp only [emits]
    split_ifs <;> rfl
  case withCollection x =>
    simp only [emits]
    split_ifs <;> rfl
  case withDocument => rfl
  all_goals
    simp only [emits]
    exact applied_keyed (fun op hop => Call.isKeyed_of_mem hop) c

theorem executed_concat (calls : List Call) (c : Call) :
    (build o p (calls ++ [c])).executed o p =
      (build o p calls).executed o p ++ c.keyed.map (Prod.mk (nextContext o p calls)) := by
  have h := Tracks.build o p calls
  obtain ⟨done, hsplit⟩ := h.split
  rw [build_concat, executed_eq o p hsplit]
  by_cases hc : c = .commitPoint
  · subst hc
    simp only [Call.keyed, map_nil, append_nil]
    by_cases hb : (build o p calls).isLargeBatch
    · obtain ⟨l, hl, hk, -⟩ := (BatchBuilder.Quiet.serializeChanges o p (build o p calls)).ops
      have hcontext : ∀ op ∈ ((build o p calls).serializeChanges o p).contextOps,
          op.isKeyed = false := by
        intro op hop
        rcases mem_append.mp hop with hop | hop
        · obtain ⟨a, -, rfl⟩ := Option.map_eq_some_iff.mp (Option.mem_toList.mp hop)
          rfl
        · obtain ⟨x, -, rfl⟩ := Option.map_eq_some_iff.mp (Option.mem_toList.mp hop)
          rfl
      show ((build o p calls).commitPoint o p).executed o p = _
      rw [executed_eq o p (hsplit.commit o p hb hl)]
      simp [applied_append,
        applied_of_not_keyed hk, applied_of_not_keyed hcontext]
    · have hsame : (build o p calls).call o p .commitPoint = build o p calls := by
        show (build o p calls).commitPoint o p = _
        unfold commitPoint
        rw [if_neg hb]
      rw [hsame, executed_eq o p hsplit]
  · obtain ⟨hops, hpoints, -⟩ := (build o p calls).call_spec o p hc
    rw [executed_eq o p (hsplit.append hops hpoints)]
    simp only [flatMap_append, flatMap_singleton, applied_append, append_assoc]
    rw [← applied_emits]
    rfl

/-- The next operation runs where it was declared. -/
def Kept (calls : List Call) : Prop :=
  (build o p calls).cached.context.accountId = (declaration calls).context.accountId ∧
    (documentDeclared o p calls ∨ (declaration calls).context.documentId = start.documentId)

theorem cached_build (calls : List Call) :
    (build o p calls).currentCollection = (declaration calls).collection ∧
      (build o p calls).currentDocumentId = (declaration calls).documentId := by
  induction calls using List.reverseRecOn with
  | nil => exact ⟨rfl, rfl⟩
  | append_singleton calls c ih =>
    rw [build_concat, declaration_concat]
    by_cases hc : c = .commitPoint
    · subst hc
      have hq := BatchBuilder.Quiet.serializeChanges o p (build o p calls)
      show ((build o p calls).commitPoint o p).currentCollection = _ ∧
        ((build o p calls).commitPoint o p).currentDocumentId = _
      unfold commitPoint
      split_ifs
      · exact ⟨hq.currentCollection.trans ih.1, hq.currentDocumentId.trans ih.2⟩
      · exact ih
    · have hcached := ((build o p calls).call_spec o p hc).2.2
      have hcol := congrArg Declaration.collection hcached
      have hdoc := congrArg Declaration.documentId hcached
      refine ⟨hcol.trans ?_, hdoc.trans ?_⟩
      · cases c <;> first | exact ih.1 | rfl
      · cases c <;> first | exact ih.2 | rfl

theorem nextContext_eq_iff (calls : List Call) :
    nextContext o p calls = (declaration calls).context ↔ Kept o p calls := by
  have h := Tracks.build o p calls
  obtain ⟨hcol, hdoc⟩ := cached_build o p calls
  have hcollection : (build o p calls).cached.context.collection =
      (declaration calls).context.collection := by
    show ((build o p calls).currentCollection.map Collection.toU8).getD _ = _
    rw [hcol]
    rfl
  have hdocument : (build o p calls).cached.context.documentId =
      (declaration calls).context.documentId := by
    show (build o p calls).currentDocumentId.getD _ = _
    rw [hdoc]
    rfl
  have hid := h.documentId
  rw [hdocument] at hid
  constructor
  · intro heq
    refine ⟨?_, ?_⟩
    · rw [← h.accountId, ← heq]
      rfl
    · by_cases hseen : documentDeclared o p calls
      · exact Or.inl hseen
      · rw [if_neg hseen] at hid
        rw [← heq]
        exact Or.inr hid
  · rintro ⟨hacc, hseen⟩
    have hid' : (start.run (build o p calls).piece).documentId =
        (declaration calls).context.documentId := by
      rcases hseen with hseen | hseen
      · rwa [if_pos hseen] at hid
      · rw [hid, hseen, ite_self]
    calc nextContext o p calls
        = ⟨(nextContext o p calls).accountId, (nextContext o p calls).collection,
            (nextContext o p calls).documentId⟩ := rfl
      _ = (declaration calls).context := by
        rw [nextContext, h.accountId, h.collection, hid', hacc, hcollection]

theorem map_mk_eq_iff {c d : Context} : l.map (Prod.mk c) = l.map (Prod.mk d) ↔ l ≠ [] → c = d := by
  rcases l with _ | ⟨op, l⟩
  · simp
  · constructor
    · intro h _
      exact congrArg Prod.fst (List.cons.inj h).1
    · intro h
      rw [h (cons_ne_nil _ _)]

theorem forall_splits_concat {α : Type*} {P : List α → α → Prop} {l : List α} {x : α} :
    (∀ before y after, l ++ [x] = before ++ y :: after → P before y) ↔
      (∀ before y after, l = before ++ y :: after → P before y) ∧ P l x := by
  constructor
  · intro h
    refine ⟨fun before y after hl => h before y (after ++ [x]) ?_, h l x [] rfl⟩
    rw [hl, append_assoc, cons_append]
  · rintro ⟨h, hx⟩ before y after hl
    rcases eq_nil_or_concat after with rfl | ⟨after, z, rfl⟩
    · obtain ⟨rfl, hy⟩ := append_inj' hl rfl
      obtain rfl := singleton_inj.mp hy
      exact hx
    · rw [concat_eq_append, ← cons_append, ← append_assoc] at hl
      exact h before y after (append_inj' hl rfl).1

theorem executed_eq_declared_concat (calls : List Call) (c : Call) :
    (build o p (calls ++ [c])).executed o p = declared (calls ++ [c]) ↔
      (build o p calls).executed o p = declared calls ∧ (c.keyed ≠ [] → Kept o p calls) := by
  rw [executed_concat, declared_concat]
  constructor
  · intro h
    obtain ⟨hfront, hlast⟩ := append_inj' h (by simp)
    exact ⟨hfront, fun hne => (nextContext_eq_iff o p calls).mp (map_mk_eq_iff.1 hlast hne)⟩
  · rintro ⟨hfront, hlast⟩
    rw [hfront, map_mk_eq_iff.2 fun hne => (nextContext_eq_iff o p calls).mpr (hlast hne)]

/-- **Context of a batch**: a piecewise commit applies every keyed operation under its declared context
exactly when, at every call that has one, the cached account is the declared account and a document
was declared since the last cut, unless none is declared. -/
theorem executed_eq_declared_iff (calls : List Call) :
    (build o p calls).executed o p = declared calls ↔
      ∀ before c after, calls = before ++ c :: after → c.keyed ≠ [] → Kept o p before := by
  induction calls using List.reverseRecOn with
  | nil =>
    have hnew : BatchBuilder.Split .new [] [] := ⟨rfl, rfl⟩
    have hexec : (build o p []).executed o p = [] := executed_eq o p hnew
    simp [hexec, declared, declaredFrom]
  | append_singleton calls c ih =>
    rw [executed_eq_declared_concat, ih,
      forall_splits_concat (P := fun before c => c.keyed ≠ [] → Kept o p before)]

/-- A value written after a cut goes to document 4294967295, not to the one declared before it. -/
theorem executed_ne_declared :
    ¬ ∀ calls : List Call, (build .u32 .u64 calls).executed .u32 .u64 = declared calls := by
  intro h
  have hsize (v : List UInt8) :
      (build .u32 .u64
        [.withAccountId 1, .withCollection .email, .withDocument 7, .set (.property 0) v]).batchSize =
        0 + (11 + v.length) := rfl
  have hbig : (build .u32 .u64 [.withAccountId 1, .withCollection .email,
      .withDocument 7, .set (.property 0) (List.replicate 5000000 0)]).isLargeBatch := by
    rw [isLargeBatch, hsize, length_replicate]
    rfl
  have hcut := (executed_eq_declared_concat .u32 .u64
    ([.withAccountId 1, .withCollection .email, .withDocument 7,
      .set (.property 0) (List.replicate 5000000 0)] ++ [.commitPoint]) (.clear (.property 1))).mp (h _)
  obtain ⟨-, hdoc⟩ := hcut.2 (cons_ne_nil _ _)
  rw [documentDeclared_concat, seenStep, if_pos hbig] at hdoc
  rcases hdoc with hdoc | hdoc
  · exact Bool.false_ne_true hdoc
  · exact absurd hdoc (by decide)

end

/-! ## What moves the cached account -/

section

variable (o : HashOrder UInt32) (p : HashOrder UInt64)

namespace BatchBuilder

theorem currentAccountId_serializeAccount (b : BatchBuilder) (r : UInt32 × ChangeLogBuilder) :
    (b.serializeAccount o p r).currentAccountId = some r.1 := by
  obtain ⟨cc, hcc⟩ := b.serializeAccount_eq o p r
  rw [hcc]
  rw [withAccountId]
  split_ifs with h
  · exact h
  · rfl

theorem currentAccountId_serializeChanges (b : BatchBuilder) :
    (b.serializeChanges o p).currentAccountId = b.changes.keys.getLast?.or b.currentAccountId := by
  unfold serializeChanges
  rcases eq_nil_or_concat b.changes.inner with hnil | ⟨l, r, hl⟩
  · have hempty : b.changes.isEmpty := by rw [VecMap.isEmpty, hnil]; rfl
    rw [if_pos hempty, VecMap.keys, hnil]
    rfl
  · have hne : ¬ b.changes.isEmpty := by
      rw [VecMap.isEmpty, hl]
      simp
    rw [if_neg hne, VecMap.keys, hl]
    simp [currentAccountId_serializeAccount]

end BatchBuilder

end

end MailServer.Store.Write
