import MailServer.JmapProto.References.Resolve

/-!
# Which objects can be put in order (`topological_sort`)

The sort fails where an object refers to one that is not created, and where its stack gets too deep.

* `Refers`: one object names another.
* `topologicalSort_iff`: without long chains the sort fails exactly on objects that are not created and on cycles.
-/

namespace MailServer.JmapProto.References

open MailServer.Utils MailServer.Lib List

variable {V : Type} {graph : Dependencies} {create : List (String × V)}

/-- An object names another one. -/
def Refers (graph : Dependencies) (id idRef : String) : Prop := idRef ∈ dependsOn graph id

/-- Each object of a chain names the next, and no object is named twice. -/
def Chain (graph : Dependencies) (chain : List String) : Prop := chain.IsChain (Refers graph) ∧ chain.Nodup

def Acyclic (graph : Dependencies) : Prop := ∀ id, ¬ Relation.TransGen (Refers graph) id id

theorem refers_iff {id idRef : String} :
    Refers graph id idRef ↔ ∃ toIds, graph.get id = some toIds ∧ idRef ∈ toIds := by
  unfold Refers dependsOn
  cases graph.get id with
  | none => simp
  | some toIds => simp

theorem deep_of_cycle (n : ℕ) {id : String} (h : Relation.TransGen (Refers graph) id id) : Deep graph.get n id := by
  induction n generalizing id with
  | zero => trivial
  | succ n ih =>
    obtain ⟨next, hnext, hback⟩ := Relation.TransGen.head'_iff.mp h
    obtain ⟨toIds, hget, hmem⟩ := refers_iff.1 hnext
    refine ⟨toIds, hget, Or.inr ⟨next, hmem, ih ?_⟩⟩
    exact Relation.TransGen.tail' hback hnext

theorem exists_chain_of_deep (n : ℕ) {id : String} (h : Deep graph.get (n + 1) id) :
    ∃ chain : List String, (id :: chain).IsChain (Refers graph) ∧ chain.length = n := by
  induction n generalizing id with
  | zero => exact ⟨[], List.IsChain.singleton id, rfl⟩
  | succ n ih =>
    obtain ⟨toIds, hget, hbelow⟩ := h
    obtain ⟨next, hmem, hdeep⟩ := hbelow.resolve_left (Nat.succ_ne_zero n)
    obtain ⟨chain, hchain, hlen⟩ := ih hdeep
    refine ⟨next :: chain, isChain_cons_cons.mpr ⟨refers_iff.2 ⟨toIds, hget, hmem⟩, hchain⟩, ?_⟩
    rw [length_cons, hlen]

theorem nodup_of_acyclic (hacyclic : Acyclic graph) {chain : List String} (h : chain.IsChain (Refers graph)) :
    chain.Nodup := by
  have htrans : chain.IsChain (Relation.TransGen (Refers graph)) := h.imp fun _ _ => Relation.TransGen.single
  refine (isChain_iff_pairwise.mp htrans).imp ?_
  rintro id idRef hway rfl
  exact hacyclic id hway

/-! ## When the sort succeeds -/

variable {order : KeyOrder}

theorem danglingReference_eq_none : danglingReference order create graph = none ↔
    ∀ id idRef, Refers graph id idRef → idRef ∈ create.map Prod.fst := by
  constructor
  · intro h id idRef href
    obtain ⟨toIds, hget, hmem⟩ := refers_iff.1 href
    exact of_danglingReference h hget idRef hmem
  · intro h
    unfold danglingReference
    rw [findSome?_eq_none_iff]
    intro id _
    rw [Option.map_eq_none_iff, find?_eq_none]
    intro idRef hmem
    simpa using h id idRef hmem

theorem mem_keys_of_deep {n : ℕ} {id : String} (h : Deep graph.get (n + 1) id) : id ∈ graph.keys := by
  obtain ⟨toIds, hget⟩ := children_of_deep h
  by_contra hnot
  rw [VecMap.get_eq_none.mpr hnot] at hget
  cases hget

theorem mem_create_place {s : Sorting V} {id other : String} (h : id ∈ s.create.map Prod.fst) (hne : other ≠ id) :
    id ∈ (s.place other).create.map Prod.fst := by
  unfold Sorting.place
  cases hr : removeEntry other s.create with
  | none => exact h
  | some r =>
    obtain ⟨rfl, hperm⟩ := perm_of_removeEntry hr
    have hmem := (hperm.map Prod.fst).mem_iff.mp h
    exact (mem_cons.mp hmem).resolve_left hne.symm

theorem topologicalSort_ok_iff (hkeys : ∀ id ∈ graph.keys, id ∈ create.map Prod.fst) :
    (∃ out, topologicalSort order create graph = .ok out) ↔
      (∀ id idRef, Refers graph id idRef → idRef ∈ create.map Prod.fst) ∧
        ∀ id, ¬ Deep graph.get (maxStack + 1) id := by
  unfold topologicalSort
  cases hdang : danglingReference order create graph with
  | some r =>
    refine iff_of_false ?_ ?_
    · rintro ⟨out, h⟩
      cases h
    · rintro ⟨hrefs, -⟩
      rw [danglingReference_eq_none.2 hrefs] at hdang
      cases hdang
  | none =>
    rw [and_iff_right (danglingReference_eq_none.1 hdang)]
    constructor
    · rintro ⟨out, h⟩ id hdeep
      obtain ⟨s, hs, -⟩ := bind_eq_ok h
      have hmem : id ∈ order.iter graph.keys := (order.perm graph.keys).mem_iff.mpr (mem_keys_of_deep hdeep)
      have hleft : id ∈ (Sorting.mk create ([] : List (String × V))).create.map Prod.fst :=
        hkeys id (mem_keys_of_deep hdeep)
      -- What has too long a way below it is never placed, so that the walk from it is not cut short.
      have hfails := @not_post_of_deep _ _ _ graph.get (fun s : Sorting V => s.create.isEmpty) Sorting.place
        Error.cyclical (fun s => id ∈ s.create.map Prod.fst) id ?_ ?_ maxStack hdeep _ hmem _ hleft
      · exact hfails.of_eq_ok hs
      · intro s hs
        rw [isEmpty_eq_false_iff]
        rintro hnil
        rw [hnil] at hs
        cases hs
      · intro s other hs hne
        exact mem_create_place hs hne
    · intro hshallow
      have hwalk : Post (fun _ => True) (fun _ => False)
          ((order.iter graph.keys).foldlM (fun s id => placeFrom graph id s) (Sorting.mk create [])) :=
        Post.foldlM (fun s id _ => post_of_not_deep maxStack s id (hshallow id)) trivial
      cases hs : (order.iter graph.keys).foldlM (fun s id => placeFrom graph id s) (Sorting.mk create []) with
      | error e =>
        rw [hs] at hwalk
        exact hwalk.elim
      | ok s => exact ⟨s.sorted ++ s.create, rfl⟩

/-- **Without long chains the sort succeeds where every object that is named is created and none names itself over
others**, and then it keeps the objects, each after those it names. -/
theorem topologicalSort_iff (order : KeyOrder) (hkeys : ∀ id ∈ graph.keys, id ∈ create.map Prod.fst)
    (hchains : ∀ chain, Chain graph chain → chain.length ≤ maxStack) :
    ((∃ out, topologicalSort order create graph = .ok out) ↔
      (∀ id idRef, Refers graph id idRef → idRef ∈ create.map Prod.fst) ∧ Acyclic graph) ∧
    ∀ out, topologicalSort order create graph = .ok out → out.Perm create ∧ Placed graph out := by
  refine ⟨(topologicalSort_ok_iff hkeys).trans (and_congr_right fun _ => ?_), ?_⟩
  · constructor
    · intro hshallow id hcycle
      exact hshallow id (deep_of_cycle (maxStack + 1) hcycle)
    · intro hacyclic id hdeep
      obtain ⟨chain, hchain, hlen⟩ := exists_chain_of_deep maxStack hdeep
      have hlong := hchains (id :: chain) ⟨hchain, nodup_of_acyclic hacyclic hchain⟩
      rw [length_cons] at hlong
      omega
  · intro out h
    exact (topologicalSort_spec order hkeys).of_eq_ok h

/-- Of two objects the first names the second. -/
def sampleGraph : Dependencies := ⟨[("b", ["a"])], nodup_singleton "b"⟩

theorem length_chain_sampleGraph : ∀ chain, Chain sampleGraph chain → chain.length ≤ maxStack := by
  have href : ∀ id idRef, Refers sampleGraph id idRef → id = "b" ∧ idRef = "a" := by
    intro id idRef h
    obtain ⟨toIds, hget, hmem⟩ := refers_iff.1 h
    by_cases hid : "b" = id
    · subst hid
      obtain rfl : ["a"] = toIds := Option.some.inj hget
      exact ⟨rfl, mem_singleton.mp hmem⟩
    · have hnone : sampleGraph.get id = none :=
        VecMap.get_eq_none.mpr (by simpa [VecMap.keys, sampleGraph] using Ne.symm hid)
      rw [hnone] at hget
      cases hget
  rintro chain ⟨hchain, -⟩
  match chain with
  | [] => exact Nat.zero_le _
  | [_] => exact Nat.succ_le_succ (Nat.zero_le _)
  | [_, _] => exact Nat.succ_le_succ (Nat.succ_le_succ (Nat.zero_le _))
  | _ :: _ :: _ :: _ =>
    obtain ⟨hfirst, hrest⟩ := isChain_cons_cons.mp hchain
    obtain ⟨hsecond, -⟩ := isChain_cons_cons.mp hrest
    have hname := (href _ _ hfirst).2
    rw [(href _ _ hsecond).1] at hname
    exact absurd hname (by decide)

theorem topologicalSort_two :
    ((∃ out, topologicalSort ⟨id, .refl⟩ [("b", 1), ("a", 2)] sampleGraph = .ok out) ↔
      (∀ id idRef, Refers sampleGraph id idRef → idRef ∈ [("b", 1), ("a", 2)].map Prod.fst) ∧ Acyclic sampleGraph) ∧
    ∀ out, topologicalSort ⟨id, .refl⟩ [("b", 1), ("a", 2)] sampleGraph = .ok out →
      out.Perm [("b", 1), ("a", 2)] ∧ Placed sampleGraph out :=
  topologicalSort_iff ⟨id, .refl⟩ (by decide) length_chain_sampleGraph

example : (topologicalSort ⟨id, .refl⟩ [("b", 1), ("a", 2)] sampleGraph).toOption = some [("a", 2), ("b", 1)] := by
  decide

end MailServer.JmapProto.References
