import MailServer.JmapProto.References

/-!
# The references of a set request (`resolve_references`, `topological_sort`)

* `SetMethod`: the set methods, with the depth of their walk.
* `resolveReferences`: the objects to create and to update with their references replaced, the former in order.
* `Resolved`: what the request is to be then.
* `resolved_of_seen`: it is if the walk missed no reference.
-/

namespace MailServer.JmapProto.References

open MailServer.Utils MailServer.Lib List

/-! ## The order of the objects to create -/

/-- The order in which a hash map is iterated. -/
structure KeyOrder where
  iter : List String → List String
  perm : ∀ keys, (iter keys).Perm keys

section

variable {V : Type}

/-- `VecMap::remove_entry`: the first entry of a key and the others. -/
def removeEntry (id : String) : List (String × V) → Option ((String × V) × List (String × V))
  | [] => none
  | e :: create =>
    if e.1 = id then some (e, create) else (removeEntry id create).map fun r => (r.1, e :: r.2)

/-- The entries left and those that are placed. -/
structure Sorting (V : Type) where
  create : List (String × V)
  sorted : List (String × V)

def Sorting.place (id : String) (s : Sorting V) : Sorting V :=
  match removeEntry id s.create with
  | none => s
  | some (e, create) => { create, sorted := s.sorted ++ [e] }

/-- A reference to an object that is not created. -/
def danglingReference (order : KeyOrder) (create : List (String × V)) (graph : Dependencies) :
    Option (String × String) :=
  (order.iter graph.keys).findSome? fun fromId =>
    ((dependsOn graph fromId).find? fun toId => toId ∉ create.map Prod.fst).map fun toId => (toId, fromId)

/-- The stack of the walk has a limit, which a cycle reaches. -/
def maxStack : ℕ := 1000

def placeFrom (graph : Dependencies) (id : String) (s : Sorting V) : Except Error (Sorting V) :=
  postorder graph.get (fun s => s.create.isEmpty) Sorting.place .cyclical maxStack id s

def topologicalSort (order : KeyOrder) (create : List (String × V)) (graph : Dependencies) :
    Except Error (List (String × V)) :=
  match danglingReference order create graph with
  | some (toId, fromId) => .error (.nonExisting toId fromId)
  | none => do
    let s ← (order.iter graph.keys).foldlM (fun s id => placeFrom graph id s) { create, sorted := [] }
    .ok (s.sorted ++ s.create)

/-! ### Every object after those it refers to -/

theorem removeEntry_eq_none {id : String} {create : List (String × V)} :
    removeEntry id create = none ↔ id ∉ create.map Prod.fst := by
  induction create with
  | nil => simp [removeEntry]
  | cons e create ih =>
    by_cases he : e.1 = id
    · simp [removeEntry, he]
    · simp [removeEntry, he, ih, Ne.symm he]

theorem perm_of_removeEntry {id : String} {e : String × V} {create rest : List (String × V)}
    (h : removeEntry id create = some (e, rest)) : e.1 = id ∧ create.Perm (e :: rest) := by
  induction create generalizing rest with
  | nil => cases h
  | cons x create ih =>
    unfold removeEntry at h
    split_ifs at h with hx
    · cases h
      exact ⟨hx, .refl _⟩
    · obtain ⟨⟨e', rest'⟩, hr, heq⟩ := Option.map_eq_some_iff.mp h
      cases heq
      obtain ⟨hid, hperm⟩ := ih hr
      exact ⟨hid, (hperm.cons x).trans (.swap e' x rest')⟩

/-- Every entry comes after those it depends on. -/
def Placed (graph : Dependencies) (create : List (String × V)) : Prop :=
  EachAfter (fun before e => ∀ idRef ∈ dependsOn graph e.1, idRef ∈ before.map Prod.fst) [] create

theorem Placed.dependsOn {graph : Dependencies} {create : List (String × V)} (h : Placed graph create) {id : String}
    (hid : id ∈ create.map Prod.fst) : ∀ idRef ∈ dependsOn graph id, idRef ∈ create.map Prod.fst := by
  obtain ⟨e, he, rfl⟩ := mem_map.mp hid
  obtain ⟨prior, hsub, hprior⟩ := EachAfter.of_mem h he
  intro idRef hr
  exact map_subset Prod.fst hsub (hprior idRef hr)

structure Sorting.Inv (graph : Dependencies) (create : List (String × V)) (s : Sorting V) : Prop where
  perm : (s.sorted ++ s.create).Perm create
  placed : Placed graph s.sorted

variable {graph : Dependencies} {create : List (String × V)}

theorem Sorting.Inv.place {s : Sorting V} (hs : s.Inv graph create) {id : String} (hid : id ∈ create.map Prod.fst)
    (hdep : ∀ toIds, graph.get id = some toIds → ∀ toId ∈ toIds, toId ∈ s.sorted.map Prod.fst) :
    (s.place id).Inv graph create ∧ id ∈ (s.place id).sorted.map Prod.fst := by
  unfold Sorting.place
  cases hr : removeEntry id s.create with
  | none =>
    refine ⟨hs, ?_⟩
    rw [← (hs.perm.map Prod.fst).mem_iff, map_append, mem_append] at hid
    exact hid.resolve_right (removeEntry_eq_none.1 hr)
  | some r =>
    obtain ⟨e, rest⟩ := r
    obtain ⟨rfl, hperm⟩ := perm_of_removeEntry hr
    refine ⟨⟨?_, ?_⟩, ?_⟩
    · rw [append_assoc]
      exact (hperm.symm.append_left s.sorted).trans hs.perm
    · refine eachAfter_concat.mpr ⟨hs.placed, ?_⟩
      intro idRef hidRef
      obtain ⟨toIds, hget, hmem⟩ : ∃ toIds, graph.get e.1 = some toIds ∧ idRef ∈ toIds := by
        cases hget : graph.get e.1 with
        | none => simp [References.dependsOn, hget] at hidRef
        | some toIds => exact ⟨toIds, rfl, by simpa [References.dependsOn, hget] using hidRef⟩
      exact hdep toIds hget idRef hmem
    · simp

theorem Sorting.kept_place {s : Sorting V} {id y : String} (hy : y ∈ s.sorted.map Prod.fst) :
    y ∈ (s.place id).sorted.map Prod.fst := by
  unfold Sorting.place
  split
  · exact hy
  · rw [map_append]
    exact mem_append_left _ hy

theorem of_danglingReference {order : KeyOrder} (h : danglingReference order create graph = none) {fromId : String}
    {toIds : List String} (hget : graph.get fromId = some toIds) : ∀ toId ∈ toIds, toId ∈ create.map Prod.fst := by
  intro toId hmem
  have hkey : fromId ∈ graph.keys := by
    by_contra hnot
    rw [VecMap.get_eq_none.mpr hnot] at hget
    cases hget
  have hnone := findSome?_eq_none_iff.mp h fromId ((order.perm graph.keys).mem_iff.mpr hkey)
  rw [Option.map_eq_none_iff, References.dependsOn, hget] at hnone
  simpa using find?_eq_none.mp hnone toId hmem

theorem placeFrom_spec
    (hget : ∀ fromId toIds, graph.get fromId = some toIds → ∀ toId ∈ toIds, toId ∈ create.map Prod.fst)
    (s : Sorting V) (id : String) (hs : s.Inv graph create) (hid : id ∈ create.map Prod.fst) :
    Post (fun s' => s'.Inv graph create ∧ id ∈ s'.sorted.map Prod.fst ∧
      ∀ y, y ∈ s.sorted.map Prod.fst → y ∈ s'.sorted.map Prod.fst) (fun _ => True) (placeFrom graph id s) := by
  have hdone (s : Sorting V) (hs : s.Inv graph create) (hempty : s.create.isEmpty = true) (id : String)
      (hid : id ∈ create.map Prod.fst) : id ∈ s.sorted.map Prod.fst := by
    rw [← (hs.perm.map Prod.fst).mem_iff, List.isEmpty_iff.mp hempty, append_nil] at hid
    exact hid
  refine post_postorder ?_ hdone ?_ ?_ maxStack s id hs hid
  · intro fromId toIds _ hto
    exact hget fromId toIds hto
  · intro s id hs hid hdep
    exact hs.place hid hdep
  · intro s id y hy
    exact Sorting.kept_place hy

theorem topologicalSort_spec (order : KeyOrder) (hkeys : ∀ id ∈ graph.keys, id ∈ create.map Prod.fst) :
    Post (fun out => out.Perm create ∧ Placed graph out) (fun _ => True) (topologicalSort order create graph) := by
  unfold topologicalSort
  cases hdang : danglingReference order create graph with
  | some r => trivial
  | none =>
    have hstart : Sorting.Inv graph create { create, sorted := [] } := ⟨.refl create, trivial⟩
    have hiter : ∀ id ∈ order.iter graph.keys, id ∈ create.map Prod.fst := by
      intro id hid
      exact hkeys id ((order.perm graph.keys).mem_iff.mp hid)
    refine (Post.foldlM_taken (placeFrom_spec fun _ _ => of_danglingReference hdang) hstart hiter).bind ?_
    rintro s ⟨hs, htaken, -⟩
    refine ⟨hs.perm, eachAfter_append.mpr ⟨hs.placed, eachAfter_of_forall ?_⟩⟩
    -- What is left over depends on nothing, or its id has been placed before.
    intro e _ between idRef hr
    have hkey : e.1 ∈ graph.keys := by
      by_contra hnot
      simp [References.dependsOn, VecMap.get_eq_none.mpr hnot] at hr
    have hsorted := hs.placed.dependsOn (htaken e.1 ((order.perm graph.keys).mem_iff.mpr hkey)) idRef hr
    rw [map_append]
    exact mem_append_left _ hsorted

end

/-! ## Set requests -/

inductive SetMethod where
  | email | mailbox | identity | emailSubmission | pushSubscription | sieve | vacationResponse | addressBook
  | contactCard | fileNode | shareNotification | calendar | calendarEvent | calendarEventNotification
  | participantIdentity | registry
  deriving DecidableEq

def SetMethod.maxDepth : SetMethod → ℕ
  | .registry => 5
  | _ => 1

def SetMethod.evalStrings : SetMethod → Bool
  | .registry => true
  | _ => false

/-- `MaybeResultReference` -/
inductive Destroy (D R : Type) where
  | value (ids : List D)
  | reference (r : R)

/-- A request to set objects of properties `P` and elements `E`; `U` are the ids of those to update. -/
structure SetRequest (U D R P E : Type) where
  create : Option (List (String × Value P E))
  update : Option (List (U × Value P E))
  destroy : Option (Destroy D R)

namespace Walk

variable {A P E U D R : Type} (w : Walk A P E)

/-- The walk of a method over its objects. -/
def ofMethod (method : SetMethod) (object : ObjectType A P E) (createdIds : String → Option A) : Walk A P E :=
  { object, createdIds, maxDepth := method.maxDepth, evalStrings := method.evalStrings }

def evalCreate (graph : Dependencies) :
    List (String × Value P E) → Except Error (List (String × Value P E) × Dependencies)
  | [] => .ok ([], graph)
  | (id, obj) :: create => do
    let (obj, graph) ← w.evalObjectReferences (some id) graph 0 obj
    let (create, graph) ← evalCreate graph create
    .ok ((id, obj) :: create, graph)

def evalUpdate : List (U × Value P E) → Except Error (List (U × Value P E))
  | [] => .ok []
  | (id, obj) :: update => do
    let (obj, _) ← w.evalObjectReferences none .empty 0 obj
    let update ← evalUpdate update
    .ok ((id, obj) :: update)

def resolveCreate (order : KeyOrder) (create : List (String × Value P E)) :
    Except Error (List (String × Value P E)) := do
  let (create, graph) ← w.evalCreate .empty create
  if graph.isEmpty then .ok create else topologicalSort order create graph

def resolveDestroy (evalResult : R → Except Error (List D)) : Destroy D R → Except Error (Destroy D R)
  | .value ids => .ok (.value ids)
  | .reference r => do
    let ids ← evalResult r
    .ok (.value ids)

/-- `SetRequest::resolve_references`, with `evalResult` for the ids that a result reference stands for. -/
def resolveReferences (order : KeyOrder) (evalResult : R → Except Error (List D)) (request : SetRequest U D R P E) :
    Except Error (SetRequest U D R P E) := do
  let create ← request.create.mapM (w.resolveCreate order)
  let update ← request.update.mapM w.evalUpdate
  let destroy ← request.destroy.mapM (resolveDestroy evalResult)
  .ok { create, update, destroy }

/-! ## What a request is to be after resolution -/

/-- The objects to create have an id for every object of an earlier call; what is left are references to objects of
this call that come before. -/
structure CreatesResolved (create create' : List (String × Value P E)) : Prop where
  replaced : create'.Perm (create.map (Prod.map id w.replaced))
  ordered : EachAfter (fun before e => ∀ idRef ∈ w.references e.2,
    w.createdIds idRef = none ∧ idRef ∈ before.map Prod.fst) [] create'

/-- The objects to update have an id for every reference. -/
structure UpdatesResolved (update update' : List (U × Value P E)) : Prop where
  replaced : update' = update.map (Prod.map id w.replaced)
  settled : ∀ e ∈ update', w.references e.2 = []

structure Resolved (request request' : SetRequest U D R P E) : Prop where
  create : Option.Rel w.CreatesResolved request.create request'.create
  update : Option.Rel w.UpdatesResolved request.update request'.update

/-- The walk misses no reference of the objects. -/
def Sees {K : Type} (entries : List (K × Value P E)) : Prop := ∀ e ∈ entries, w.missed 0 e.2 = []

/-! ## What the walk over the objects does -/

variable {w}

structure CreateEvaluated (w : Walk A P E) (graph graph' : Dependencies) (create create' : List (String × Value P E)) :
    Prop where
  keeps : ∀ id idRef, idRef ∈ dependsOn graph id → idRef ∈ dependsOn graph' id
  adds : ∀ id ∈ graph'.keys, id ∈ graph.keys ∨ id ∈ create'.map Prod.fst
  replaced : w.Sees create → create' = create.map (Prod.map id w.replaced)
  known : w.Sees create → ∀ e ∈ create', ∀ idRef ∈ w.references e.2,
    w.createdIds idRef = none ∧ idRef ∈ dependsOn graph' e.1
  kept : ∀ e ∈ create, ∀ idRef ∈ w.missed 0 e.2, ∃ e' ∈ create', idRef ∈ w.references e'.2
  ids : create'.map Prod.fst = create.map Prod.fst

theorem evalCreate_spec (create : List (String × Value P E)) (graph : Dependencies) :
    Post (fun x => CreateEvaluated w graph x.2 create x.1) (fun _ => True) (w.evalCreate graph create) := by
  induction create generalizing graph with
  | nil => exact ⟨fun _ _ h => h, fun _ => Or.inl, fun _ => rfl, fun _ => nofun, nofun, rfl⟩
  | cons e create ih =>
    obtain ⟨id, obj⟩ := e
    refine (evalObjectReferences_spec (some id) graph 0 obj).bind ?_
    rintro ⟨obj', graph₁⟩ hobj
    refine (ih graph₁).bind ?_
    rintro ⟨create', graph₂⟩ hcreate
    refine ⟨?_, ?_, ?_, ?_, ?_, congrArg (id :: ·) hcreate.ids⟩
    · intro k idRef hr
      exact hcreate.keeps k idRef (hobj.grows.keeps k idRef hr)
    · intro k hk
      rcases hcreate.adds k hk with hk | hk
      · refine (hobj.grows.adds k hk).imp_right ?_
        intro h
        cases h
        exact mem_cons_self
      · exact Or.inr (mem_cons_of_mem id hk)
    · intro hsees
      obtain ⟨hmissed, hrest⟩ := forall_mem_cons.mp hsees
      exact congrArg₂ List.cons (congrArg (Prod.mk id) (hobj.done hmissed)) (hcreate.replaced hrest)
    · intro hsees
      obtain ⟨hmissed, hrest⟩ := forall_mem_cons.mp hsees
      refine forall_mem_cons.mpr ⟨?_, hcreate.known hrest⟩
      intro idRef hr
      rcases hobj.known idRef hr with hm | ⟨hnone, k, hk, hdep⟩
      · rw [hmissed] at hm
        cases hm
      · cases hk
        exact ⟨hnone, hcreate.keeps id idRef hdep⟩
    · refine forall_mem_cons.mpr ⟨?_, ?_⟩
      · intro idRef hm
        exact ⟨_, mem_cons_self, hobj.kept idRef hm⟩
      · intro e he idRef hm
        obtain ⟨e', he', hr⟩ := hcreate.kept e he idRef hm
        exact ⟨e', mem_cons_of_mem _ he', hr⟩

theorem evalUpdate_spec (update : List (U × Value P E)) :
    Post (fun update' => (w.Sees update → w.UpdatesResolved update update') ∧
      ∀ e ∈ update, ∀ idRef ∈ w.missed 0 e.2, ∃ e' ∈ update', idRef ∈ w.references e'.2)
      (fun _ => True) (w.evalUpdate update) := by
  induction update with
  | nil => exact ⟨fun _ => ⟨rfl, nofun⟩, nofun⟩
  | cons e update ih =>
    obtain ⟨id, obj⟩ := e
    refine (evalObjectReferences_spec none .empty 0 obj).bind ?_
    rintro ⟨obj', graph⟩ hobj
    refine ih.bind ?_
    rintro update' ⟨hseen, hkept⟩
    refine ⟨?_, forall_mem_cons.mpr ⟨?_, ?_⟩⟩
    · intro hsees
      obtain ⟨hmissed, hrest⟩ := forall_mem_cons.mp hsees
      obtain ⟨hreplaced, hsettled⟩ := hseen hrest
      refine ⟨congrArg₂ List.cons (congrArg (Prod.mk id) (hobj.done hmissed)) hreplaced, ?_⟩
      refine forall_mem_cons.mpr ⟨eq_nil_iff_forall_not_mem.mpr ?_, hsettled⟩
      intro idRef hr
      rcases hobj.known idRef hr with hm | ⟨-, k, hk, -⟩
      · rw [hmissed] at hm
        cases hm
      · cases hk
    · intro idRef hm
      exact ⟨_, mem_cons_self, hobj.kept idRef hm⟩
    · intro e he idRef hm
      obtain ⟨e', he', hr⟩ := hkept e he idRef hm
      exact ⟨e', mem_cons_of_mem _ he', hr⟩

theorem CreateEvaluated.resolved {graph : Dependencies} {create create' out : List (String × Value P E)}
    (h : CreateEvaluated w .empty graph create create') (hperm : out.Perm create') (hplaced : Placed graph out)
    (hsees : w.Sees create) : w.CreatesResolved create out := by
  refine ⟨hperm.trans (.of_eq (h.replaced hsees)), EachAfter.imp hplaced ?_⟩
  intro e he before hbefore idRef hr
  obtain ⟨hnone, hdep⟩ := h.known hsees e (hperm.mem_iff.mp he) idRef hr
  exact ⟨hnone, hbefore idRef hdep⟩

theorem resolveCreate_spec (order : KeyOrder) (create : List (String × Value P E)) :
    Post (fun out => (w.Sees create → w.CreatesResolved create out) ∧ (out.map Prod.fst).Perm (create.map Prod.fst) ∧
      ∀ e ∈ create, ∀ idRef ∈ w.missed 0 e.2, ∃ e' ∈ out, idRef ∈ w.references e'.2)
      (fun _ => True) (w.resolveCreate order create) := by
  refine (evalCreate_spec create .empty).bind ?_
  rintro ⟨create', graph⟩ h
  have hkept {out : List (String × Value P E)} (hperm : out.Perm create') (e : String × Value P E) (he : e ∈ create)
      (idRef : String) (hm : idRef ∈ w.missed 0 e.2) : ∃ e' ∈ out, idRef ∈ w.references e'.2 := by
    obtain ⟨e', he', hr⟩ := h.kept e he idRef hm
    exact ⟨e', hperm.mem_iff.mpr he', hr⟩
  refine Post.ite ?_ ?_
  · intro hempty
    have hnone (id : String) : dependsOn graph id = [] := by
      have : graph.keys = [] := congrArg (List.map Prod.fst) (List.isEmpty_iff.mp hempty)
      rw [dependsOn, VecMap.get_eq_none.mpr (this ▸ not_mem_nil)]
      rfl
    have hplaced : Placed graph create' := by
      refine eachAfter_of_forall ?_
      intro e _ before idRef hr
      rw [hnone] at hr
      cases hr
    exact ⟨h.resolved (.refl create') hplaced, .of_eq h.ids, hkept (.refl create')⟩
  · intro _
    have hkeys : ∀ id ∈ graph.keys, id ∈ create'.map Prod.fst := by
      intro id hid
      exact (h.adds id hid).resolve_left not_mem_nil
    refine (topologicalSort_spec order hkeys).mono ?_
    rintro out ⟨hperm, hplaced⟩
    exact ⟨h.resolved hperm hplaced, (hperm.map Prod.fst).trans (.of_eq h.ids), hkept hperm⟩

theorem post_mapM {α β ε : Type} {Q : α → β → Prop} {M : ε → Prop} {f : α → Except ε β} (hf : ∀ a, Post (Q a) M (f a)) :
    ∀ o : Option α, Post (Option.Rel Q o) M (o.mapM f)
  | none => .none
  | some a => (hf a).map fun _ hb => .some hb

/-- The lists of objects before and after. -/
structure RequestEvaluated (w : Walk A P E) (request request' : SetRequest U D R P E) : Prop where
  create : Option.Rel (fun create out => (w.Sees create → w.CreatesResolved create out) ∧
    (out.map Prod.fst).Perm (create.map Prod.fst) ∧
    ∀ e ∈ create, ∀ idRef ∈ w.missed 0 e.2, ∃ e' ∈ out, idRef ∈ w.references e'.2) request.create request'.create
  update : Option.Rel (fun update update' => (w.Sees update → w.UpdatesResolved update update') ∧
    ∀ e ∈ update, ∀ idRef ∈ w.missed 0 e.2, ∃ e' ∈ update', idRef ∈ w.references e'.2) request.update request'.update

theorem resolveReferences_spec (order : KeyOrder) (evalResult : R → Except Error (List D))
    (request : SetRequest U D R P E) :
    Post (w.RequestEvaluated request) (fun _ => True) (w.resolveReferences order evalResult request) := by
  refine (post_mapM (resolveCreate_spec order) request.create).bind ?_
  intro create hcreate
  refine (post_mapM evalUpdate_spec request.update).bind ?_
  intro update hupdate
  refine (post_true (request.destroy.mapM (resolveDestroy evalResult))).bind ?_
  intro destroy _
  exact ⟨hcreate, hupdate⟩

theorem CreatesResolved.siblings {create out : List (String × Value P E)} (h : w.CreatesResolved create out)
    (hids : (out.map Prod.fst).Perm (create.map Prod.fst)) {idRef : String}
    (hleft : ∃ e' ∈ out, idRef ∈ w.references e'.2) : w.createdIds idRef = none ∧ idRef ∈ create.map Prod.fst := by
  obtain ⟨e', he', hr⟩ := hleft
  obtain ⟨prior, hsub, hprior⟩ := EachAfter.of_mem h.ordered he'
  obtain ⟨hnone, hmem⟩ := hprior idRef hr
  exact ⟨hnone, hids.mem_iff.mp (map_subset Prod.fst hsub hmem)⟩

/-- With a method's walk: where no reference is missed the request is resolved, and where it is resolved the
references that were missed are of objects to create, and to others of these. -/
theorem resolved_of_seen (method : SetMethod) (object : ObjectType A P E) (createdIds : String → Option A)
    (order : KeyOrder) (evalResult : R → Except Error (List D)) (request request' : SetRequest U D R P E)
    (h : (ofMethod method object createdIds).resolveReferences order evalResult request = .ok request') :
    ((∀ create ∈ request.create, (ofMethod method object createdIds).Sees create) →
      (∀ update ∈ request.update, (ofMethod method object createdIds).Sees update) →
      (ofMethod method object createdIds).Resolved request request') ∧
    ((ofMethod method object createdIds).Resolved request request' →
      (∀ create ∈ request.create, ∀ e ∈ create, ∀ idRef ∈ (ofMethod method object createdIds).missed 0 e.2,
        createdIds idRef = none ∧ idRef ∈ create.map Prod.fst) ∧
      ∀ update ∈ request.update, (ofMethod method object createdIds).Sees update) := by
  obtain ⟨hcreate, hupdate⟩ := (resolveReferences_spec order evalResult request).of_eq_ok h
  obtain ⟨create, update, destroy⟩ := request
  obtain ⟨create', update', destroy'⟩ := request'
  refine ⟨?_, ?_⟩
  · intro hc hu
    refine ⟨?_, ?_⟩
    · cases hcreate with
      | none => exact .none
      | some hlist => exact .some (hlist.1 (hc _ rfl))
    · cases hupdate with
      | none => exact .none
      | some hlist => exact .some (hlist.1 (hu _ rfl))
  · rintro ⟨hc, hu⟩
    refine ⟨?_, ?_⟩
    · rintro _ ⟨⟩ e he idRef hm
      cases hcreate with
      | some hlist =>
        cases hc with
        | some hc => exact hc.siblings hlist.2.1 (hlist.2.2 e he idRef hm)
    · rintro _ ⟨⟩ e he
      cases hupdate with
      | some hlist =>
        cases hu with
        | some hu =>
          refine eq_nil_iff_forall_not_mem.mpr ?_
          intro idRef hm
          obtain ⟨e', he', hr⟩ := hlist.2 e he idRef hm
          rw [hu.settled e' he'] at hr
          cases hr

end Walk

/-! ## E-mails -/

/-- The id of an object, or the digits of a blob's. -/
inductive AnyId where
  | id (id : Types.Id)
  | blobId (digits : List (Fin 32))

def AnyId.text : AnyId → String
  | .id i => i.asString
  | .blobId digits => String.ofList (digits.map fun digit => Types.base32Alphabet.getD digit.val 'a')

theorem stripHash_ofList {cs : List Char} (h : '#' ∉ cs) : stripHash (String.ofList cs) = none := by
  unfold stripHash
  rw [String.toList_ofList]
  split
  · exact absurd mem_cons_self h
  · rfl

theorem digit_ne_hash (digit : ℕ) : Types.base32Alphabet.getD digit 'a' ≠ '#' := by
  rw [getD_eq_getElem?_getD]
  cases hd : Types.base32Alphabet[digit]? with
  | none => decide
  | some c =>
    have hmem := mem_of_getElem? hd
    rintro rfl
    exact absurd hmem (by decide)

theorem AnyId.stripHash_text : ∀ id : AnyId, stripHash id.text = none
  | .id i => by
    show stripHash i.asString = none
    unfold Types.Id.asString
    split_ifs with h
    · decide
    · refine stripHash_ofList ?_
      intro hmem
      obtain ⟨digit, -, hdigit⟩ := mem_map.mp hmem
      exact digit_ne_hash digit hdigit
  | .blobId digits => by
    refine stripHash_ofList ?_
    intro hmem
    obtain ⟨digit, -, hdigit⟩ := mem_map.mp hmem
    exact digit_ne_hash digit hdigit

/-- Properties of an e-mail: the ids of mailboxes as keys, these behind `mailboxIds/`, and others by name. -/
inductive EmailProperty where
  | idValue (id : Types.Id)
  | idReference (idRef : String)
  | mailboxId (id : Types.Id)
  | mailboxReference (idRef : String)
  | named (name : String)

inductive EmailValue where
  | id (id : Types.Id)
  | blobId (digits : List (Fin 32))
  | date (date : String)
  | idReference (idRef : String)

def EmailProperty.asIdRef : EmailProperty → Option String
  | .idReference idRef => some idRef
  | .mailboxReference idRef => some idRef
  | _ => none

def EmailProperty.trySetId : EmailProperty → AnyId → Option EmailProperty
  | .mailboxId _, .id i => some (.mailboxId i)
  | .mailboxReference _, .id i => some (.mailboxId i)
  | _, .id i => some (.idValue i)
  | _, .blobId _ => none

def EmailValue.asIdRef : EmailValue → Option String
  | .idReference idRef => some idRef
  | _ => none

def EmailValue.trySetId : EmailValue → AnyId → Option EmailValue
  | _, .id i => some (.id i)
  | _, .blobId digits => some (.blobId digits)

theorem EmailProperty.asIdRef_of_trySetId {p p' : EmailProperty} {id : AnyId} (h : p.trySetId id = some p') :
    p'.asIdRef = none := by
  cases id with
  | id id => cases p <;> cases h <;> rfl
  | blobId digits => cases p <;> cases h

theorem EmailValue.asIdRef_of_trySetId {v v' : EmailValue} {id : AnyId} (h : v.trySetId id = some v') :
    v'.asIdRef = none := by
  cases id <;> cases h <;> rfl

def email : ObjectType AnyId EmailProperty EmailValue where
  property :=
    { asIdRef := EmailProperty.asIdRef
      trySetId := EmailProperty.trySetId
      asIdRef_of_trySetId := EmailProperty.asIdRef_of_trySetId }
  element :=
    { asIdRef := EmailValue.asIdRef
      trySetId := EmailValue.trySetId
      asIdRef_of_trySetId := EmailValue.asIdRef_of_trySetId }
  idText := AnyId.text
  stripHash_idText := AnyId.stripHash_text

/-- An earlier call has created mailbox `m1`. -/
def mailboxCreated (idRef : String) : Option AnyId := if idRef = "m1" then some (.id ⟨7⟩) else none

/-- One e-mail to create with one property. -/
def createEmail (key : Key EmailProperty) (value : Value EmailProperty EmailValue) :
    SetRequest Types.Id Types.Id String EmailProperty EmailValue where
  create := some [("e1", .object [(key, value)])]
  update := none
  destroy := none

def noResults : String → Except Error (List Types.Id) := fun _ => .error (.resultReference "")

/-- Any order: the keys as they were inserted. -/
def insertionOrder : KeyOrder := ⟨id, List.Perm.refl⟩

namespace Walk

theorem resolved_of_seen_patch :
    (ofMethod .email email mailboxCreated).Resolved
      (createEmail (.property (.mailboxReference "m1")) (.bool true))
      (createEmail (.property (.mailboxId ⟨7⟩)) (.bool true)) := by
  refine (resolved_of_seen .email email mailboxCreated insertionOrder noResults
    (createEmail (.property (.mailboxReference "m1")) (.bool true)) _ rfl).1 ?_ nofun
  rintro _ ⟨⟩ e he
  obtain rfl := mem_singleton.mp he
  rfl

/-- A new message in a new mailbox: the walk ends above the keys of `mailboxIds`. -/
def inNewMailbox : SetRequest Types.Id Types.Id String EmailProperty EmailValue :=
  createEmail (.property (.named "mailboxIds")) (.object [(.property (.idReference "m1"), .bool true)])

theorem not_references_resolved :
    ¬ ∀ request request' : SetRequest Types.Id Types.Id String EmailProperty EmailValue,
      (ofMethod .email email mailboxCreated).resolveReferences insertionOrder noResults request = .ok request' →
      (ofMethod .email email mailboxCreated).Resolved request request' := by
  intro h
  have hresolved := h inNewMailbox inNewMailbox rfl
  cases hresolved.create with
  | some h =>
    have hleft := (h.ordered.1 "m1" (by decide)).1
    exact absurd hleft (by decide)

end Walk
end MailServer.JmapProto.References
