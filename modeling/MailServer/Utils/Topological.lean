import MailServer.Utils.HashMap

/-!
# Topological sorting (`utils/src/topological.rs`)

Nodes are visited when all nodes with an edge to them have been.  `count` has the number of these edges that are left.

* `TopologicalSort.insert`, `intoIterator`, `next`: the operations.  `toList`: all that the iterator gives.
* `InOrder`: a list in which every node comes after its predecessors.
* `inOrder_toList`, `exists_edge_of_notMem`: what is visited is in order, and what is not has a predecessor that is not.
* `toList_spec`: what is visited.
-/

namespace MailServer.Utils

open List

structure TopologicalSort (T : Type) [Ord T] where
  edges : HashMap T (List T)
  count : HashMap T ℕ

/-- A queue whose front is the head of the list. -/
structure TopologicalSortIterator (T : Type) [Ord T] where
  edges : HashMap T (List T)
  count : HashMap T ℕ
  noEdges : List T

variable {T : Type} [Ord T]

def TopologicalSort.insert (sort : TopologicalSort T) (source target : T) : TopologicalSort T :=
  let count := sort.count.insertIfNew source 0
  { edges := sort.edges.insert source (sort.edges[source]?.getD [] ++ [target])
    count := count.insert target (count[target]?.getD 0 + 1) }

def TopologicalSort.intoIterator (sort : TopologicalSort T) : TopologicalSortIterator T :=
  { edges := sort.edges
    count := sort.count.retain fun _ count => count != 0
    noEdges := (sort.count.toList.filter fun e => e.2 == 0).map Prod.fst }

namespace TopologicalSortIterator

/-- One edge less into a node. -/
def release (it : TopologicalSortIterator T) (neighbor : T) : TopologicalSortIterator T :=
  match it.count[neighbor]? with
  | none => it
  | some count =>
    if count - 1 = 0 then { it with count := it.count.erase neighbor, noEdges := neighbor :: it.noEdges }
    else { it with count := it.count.insert neighbor (count - 1) }

def next (it : TopologicalSortIterator T) : Option (T × TopologicalSortIterator T) :=
  match it.noEdges.getLast? with
  | none => none
  | some noEdge =>
    some (noEdge, (it.edges[noEdge]?.getD []).foldl release { it with noEdges := it.noEdges.dropLast })

/-- The first nodes that the iterator gives. -/
def take : ℕ → TopologicalSortIterator T → List T
  | 0, _ => []
  | n + 1, it =>
    match it.next with
    | none => []
    | some (node, it) => node :: take n it

/-- How many nodes may still come. -/
def left (it : TopologicalSortIterator T) : ℕ := it.count.size + it.noEdges.length

end TopologicalSortIterator

/-- The nodes in the order of the iterator, which comes to an end (`left_next`). -/
def TopologicalSort.toList (sort : TopologicalSort T) : List T :=
  sort.intoIterator.take sort.intoIterator.left

def TopologicalSort.ofEdges (es : List (T × T)) : TopologicalSort T :=
  es.foldl (fun sort e => sort.insert e.1 e.2) ⟨∅, ∅⟩

/-- Nodes that come after their predecessors, once each, when some are done. -/
def InOrder (es : List (T × T)) : List T → List T → Prop
  | _, [] => True
  | done, node :: rest => node ∉ done ∧ (∀ e ∈ es, e.2 = node → e.1 ∈ done) ∧ InOrder es (node :: done) rest

section

variable [Std.TransOrd T] [Std.LawfulEqOrd T] [DecidableEq T]

/-! ## Edges into a node -/

/-- The es into a node from nodes that are not done, and those from one that is being done. -/
def pending (es : List (T × T)) (done neighbors : List T) (node : T) : ℕ :=
  (es.countP fun e => decide (e.2 = node ∧ e.1 ∉ done)) + neighbors.count node

def targets (es : List (T × T)) (node : T) : List T := (es.filter fun e => e.1 = node).map Prod.snd

omit [Ord T] [Std.TransOrd T] [Std.LawfulEqOrd T] in
theorem pending_visit {es : List (T × T)} {done : List T} {u : T} (hu : u ∉ done) (v : T) :
    pending es (u :: done) (targets es u) v = pending es done [] v := by
  unfold pending targets
  induction es with
  | nil => rfl
  | cons e es ih =>
    simp only [countP_cons, filter_cons, count_nil] at ih ⊢
    by_cases hsource : e.1 = u
    · have hself : u ∈ u :: done := mem_cons_self
      by_cases htarget : e.2 = v
      · simp only [hsource, htarget, hu, hself, not_true, not_false_iff, and_false, and_true, decide_true, decide_false,
          if_true, Bool.false_eq_true, if_false, map_cons, count_cons_self]
        omega
      · simp only [hsource, htarget, false_and, decide_true, decide_false, if_true, Bool.false_eq_true, if_false,
          map_cons, count_cons, beq_iff_eq]
        omega
    · simp only [hsource, decide_false, Bool.false_eq_true, if_false, mem_cons, false_or] at ih ⊢
      omega

omit [Ord T] [Std.TransOrd T] [Std.LawfulEqOrd T] in
theorem pending_eq_zero {es : List (T × T)} {done : List T} {v : T} :
    pending es done [] v = 0 ↔ ∀ e ∈ es, e.2 = v → e.1 ∈ done := by
  simp [pending, countP_eq_zero]

/-! ## The invariant -/

/-- `done` has been visited, and `neighbors` are left of the last one. -/
structure Sorting (es : List (T × T)) (done neighbors : List T) (it : TopologicalSortIterator T) : Prop where
  edges : ∀ u, it.edges[u]?.getD [] = targets es u
  count : ∀ v c, it.count[v]? = some c → c = pending es done neighbors v ∧ 0 < c
  ready : ∀ v ∈ it.noEdges, pending es done neighbors v = 0 ∧ v ∉ done
  nodup : it.noEdges.Nodup
  undone : ∀ v c, it.count[v]? = some c → v ∉ done
  node : ∀ e ∈ es, ∀ v, v = e.1 ∨ v = e.2 → v ∈ done ∨ v ∈ it.noEdges ∨ it.count[v]?.isSome = true

namespace TopologicalSortIterator

variable {es : List (T × T)} {done neighbors : List T} {it : TopologicalSortIterator T} {v : T}

theorem sorting_release (h : Sorting es done (v :: neighbors) it) : Sorting es done neighbors (it.release v) := by
  have hself : pending es done (v :: neighbors) v = pending es done neighbors v + 1 := by
    simp [pending]
    omega
  have hother {w : T} (hw : v ≠ w) : pending es done (v :: neighbors) w = pending es done neighbors w := by
    simp [pending, hw]
  unfold release
  cases hcount : it.count[v]? with
  | none =>
    refine ⟨h.edges, fun w c hc => ?_, fun w hw => ?_, h.nodup, h.undone, h.node⟩
    · have hne : v ≠ w := by rintro rfl; rw [hcount] at hc; cases hc
      rw [← hother hne]
      exact h.count w c hc
    · obtain ⟨hzero, hnot⟩ := h.ready w hw
      refine ⟨?_, hnot⟩
      by_cases hne : v = w
      · subst hne; omega
      · rwa [← hother hne]
  | some c =>
    obtain ⟨hc, hpos⟩ := h.count v c hcount
    have hready : v ∉ it.noEdges := fun hmem => by
      have := (h.ready v hmem).1
      omega
    have hkeep (w : T) (hw : w ∈ it.noEdges) : pending es done neighbors w = 0 ∧ w ∉ done := by
      have hne : v ≠ w := by rintro rfl; exact hready hw
      rw [← hother hne]
      exact h.ready w hw
    dsimp only
    split_ifs with hlast
    · refine ⟨h.edges, fun w d hd => ?_, fun w hw => ?_, nodup_cons.mpr ⟨hready, h.nodup⟩, fun w d hd => ?_,
        fun e he w hw => ?_⟩
      · rw [HashMap.getElem?_erase] at hd
        split_ifs at hd with hne
        rw [← hother hne]
        exact h.count w d hd
      · rcases mem_cons.mp hw with rfl | hw
        · exact ⟨by omega, h.undone w c hcount⟩
        · exact hkeep w hw
      · rw [HashMap.getElem?_erase] at hd
        split_ifs at hd
        exact h.undone w d hd
      · rcases h.node e he w hw with hdone | hwait | hcounted
        · exact .inl hdone
        · exact .inr (.inl (mem_cons_of_mem _ hwait))
        · by_cases hne : v = w
          · exact .inr (.inl (mem_cons.mpr (.inl hne.symm)))
          · refine .inr (.inr ?_)
            rwa [HashMap.getElem?_erase, if_neg hne]
    · refine ⟨h.edges, fun w d hd => ?_, hkeep, h.nodup, fun w d hd => ?_, fun e he w hw => ?_⟩
      · rw [HashMap.getElem?_insert] at hd
        split_ifs at hd with hne
        · subst hne
          obtain rfl := Option.some.inj hd
          exact ⟨by omega, by omega⟩
        · rw [← hother hne]
          exact h.count w d hd
      · rw [HashMap.getElem?_insert] at hd
        split_ifs at hd with hne
        · exact hne ▸ h.undone v c hcount
        · exact h.undone w d hd
      · refine (h.node e he w hw).imp_right fun hrest => hrest.imp_right fun hcounted => ?_
        rw [HashMap.getElem?_insert]
        split_ifs
        · rfl
        · exact hcounted

theorem sorting_foldl (h : Sorting es done neighbors it) : Sorting es done [] (neighbors.foldl release it) := by
  induction neighbors generalizing it with
  | nil => exact h
  | cons v neighbors ih => exact ih (sorting_release h)

omit [Std.LawfulEqOrd T] [DecidableEq T] in
theorem left_release (it : TopologicalSortIterator T) (v : T) : (it.release v).left ≤ it.left := by
  unfold release
  cases hcount : it.count[v]? with
  | none => exact le_rfl
  | some c =>
    have hmem : it.count.contains v = true := by rw [Std.TreeMap.contains_eq_isSome_getElem?, hcount]; rfl
    have hpos : 0 < it.count.size := by
      by_contra hzero
      have hempty : it.count.isEmpty = true := by
        rw [Std.TreeMap.isEmpty_eq_size_eq_zero]
        simpa using hzero
      rw [Std.TreeMap.contains_of_isEmpty hempty] at hmem
      cases hmem
    dsimp only
    split_ifs
    · show (it.count.erase v).size + (v :: it.noEdges).length ≤ it.count.size + it.noEdges.length
      rw [Std.TreeMap.size_erase, if_pos hmem, length_cons]
      omega
    · show (it.count.insert v (c - 1)).size + it.noEdges.length ≤ it.count.size + it.noEdges.length
      rw [Std.TreeMap.size_insert, if_pos hmem]

omit [Std.LawfulEqOrd T] [DecidableEq T] in
theorem left_foldl (neighbors : List T) (it : TopologicalSortIterator T) : (neighbors.foldl release it).left ≤ it.left := by
  induction neighbors generalizing it with
  | nil => exact le_rfl
  | cons v neighbors ih => exact (ih _).trans (left_release it v)

omit [Std.LawfulEqOrd T] [DecidableEq T] in
theorem left_next {u : T} {it' : TopologicalSortIterator T} (h : it.next = some (u, it')) : it'.left < it.left := by
  unfold next at h
  cases hlast : it.noEdges.getLast? with
  | none => rw [hlast] at h; cases h
  | some w =>
    rw [hlast] at h
    obtain ⟨rfl, rfl⟩ := Prod.mk.inj (Option.some.inj h)
    refine (left_foldl _ _).trans_lt ?_
    have hpos : 0 < it.noEdges.length := length_pos_of_mem (mem_of_getLast? hlast)
    show it.count.size + it.noEdges.dropLast.length < it.count.size + it.noEdges.length
    rw [length_dropLast]
    omega

theorem sorting_next {u : T} {it' : TopologicalSortIterator T} (h : Sorting es done [] it)
    (hnext : it.next = some (u, it')) :
    u ∉ done ∧ (∀ e ∈ es, e.2 = u → e.1 ∈ done) ∧ Sorting es (u :: done) [] it' := by
  unfold next at hnext
  cases hlast : it.noEdges.getLast? with
  | none => rw [hlast] at hnext; cases hnext
  | some w =>
    rw [hlast] at hnext
    obtain ⟨rfl, rfl⟩ := Prod.mk.inj (Option.some.inj hnext)
    have hsplit : it.noEdges.dropLast ++ [w] = it.noEdges := dropLast_append_getLast? w hlast
    have hmem : w ∈ it.noEdges := mem_of_getLast? hlast
    obtain ⟨hzero, hdone⟩ := h.ready w hmem
    refine ⟨hdone, pending_eq_zero.1 hzero, ?_⟩
    have hnodup := h.nodup
    rw [← hsplit, nodup_append] at hnodup
    rw [h.edges]
    apply sorting_foldl
    refine ⟨h.edges, fun v c hc => ?_, fun v hv => ?_, hnodup.1, fun v c hc => ?_, fun e he v hv => ?_⟩
    · rw [pending_visit hdone]
      exact h.count v c hc
    · rw [pending_visit hdone]
      have hv' := h.ready v (mem_of_mem_dropLast hv)
      refine ⟨hv'.1, fun hmem => ?_⟩
      rcases mem_cons.mp hmem with rfl | hmem
      · exact hnodup.2.2 v hv v mem_cons_self rfl
      · exact hv'.2 hmem
    · intro hmem
      rcases mem_cons.mp hmem with rfl | hmem
      · have := h.count v c hc
        omega
      · exact h.undone v c hc hmem
    · rcases h.node e he v hv with hold | hwait | hcounted
      · exact .inl (mem_cons_of_mem _ hold)
      · rw [← hsplit, mem_append, mem_singleton] at hwait
        rcases hwait with hwait | rfl
        · exact .inr (.inl hwait)
        · exact .inl mem_cons_self
      · exact .inr (.inr hcounted)

/-- **The run of the iterator**: nodes come in order, and one that never comes has a predecessor that never comes. -/
theorem take_spec {n : ℕ} (h : Sorting es done [] it) (hn : it.left ≤ n) :
    InOrder es done (it.take n) ∧
      ∀ e ∈ es, ∀ v, v = e.1 ∨ v = e.2 → v ∉ done → v ∉ it.take n →
        ∃ e ∈ es, e.2 = v ∧ e.1 ∉ done ∧ e.1 ∉ it.take n := by
  induction n generalizing done it with
  | zero =>
    have hsize : it.count.size = 0 ∧ it.noEdges.length = 0 := by
      unfold left at hn
      omega
    refine ⟨trivial, fun e he v hv hdone _ => ?_⟩
    rcases h.node e he v hv with hmem | hwait | hcounted
    · exact absurd hmem hdone
    · rw [length_eq_zero_iff.mp hsize.2] at hwait
      cases hwait
    · have hempty : it.count.isEmpty = true := by
        rw [Std.TreeMap.isEmpty_eq_size_eq_zero]
        simpa using hsize.1
      rw [Std.TreeMap.getElem?_of_isEmpty hempty] at hcounted
      cases hcounted
  | succ n ih =>
    unfold take
    cases hnext : it.next with
    | none =>
      have hnil : it.noEdges = [] := by
        unfold next at hnext
        cases hlast : it.noEdges.getLast? with
        | none => exact getLast?_eq_none_iff.mp hlast
        | some w => rw [hlast] at hnext; cases hnext
      refine ⟨trivial, fun e he v hv hdone _ => ?_⟩
      rcases h.node e he v hv with hmem | hwait | hcounted
      · exact absurd hmem hdone
      · rw [hnil] at hwait
        cases hwait
      · obtain ⟨c, hc⟩ := Option.isSome_iff_exists.mp hcounted
        obtain ⟨hpending, hpos⟩ := h.count v c hc
        by_contra hnone
        have hzero : pending es done [] v = 0 := pending_eq_zero.2 fun d hd htarget => by
          by_contra hsource
          exact hnone ⟨d, hd, htarget, hsource, not_mem_nil⟩
        omega
    | some p =>
      obtain ⟨hu, hpred, hsorting⟩ := sorting_next h hnext
      have hleft := left_next hnext
      obtain ⟨horder, hrest⟩ := ih hsorting (by omega)
      refine ⟨⟨hu, hpred, horder⟩, fun e he v hv hdone hnot => ?_⟩
      rw [mem_cons, not_or] at hnot
      obtain ⟨d, hd, htarget, hsource, hlater⟩ := hrest e he v hv
        (fun hmem => (mem_cons.mp hmem).elim hnot.1 hdone) hnot.2
      rw [mem_cons, not_or] at hsource
      exact ⟨d, hd, htarget, hsource.2, fun hmem => (mem_cons.mp hmem).elim hsource.1 hlater⟩

end TopologicalSortIterator

/-! ## The sort -/

namespace TopologicalSort

/-- The maps of a sort are those of its edges. -/
structure Of (es : List (T × T)) (sort : TopologicalSort T) : Prop where
  edges : ∀ u, sort.edges[u]?.getD [] = targets es u
  count : ∀ v, sort.count[v]?.getD 0 = pending es [] [] v
  node : ∀ e ∈ es, ∀ v, v = e.1 ∨ v = e.2 → sort.count[v]?.isSome = true

variable {es : List (T × T)} {sort : TopologicalSort T}

theorem Of.insert (h : Of es sort) (source target : T) :
    Of (es ++ [(source, target)]) (sort.insert source target) := by
  have hnew (v : T) : (sort.count.insertIfNew source 0)[v]? =
      if source = v then some (sort.count[v]?.getD 0) else sort.count[v]? := by
    simp only [Std.TreeMap.getElem?_insertIfNew]
    by_cases hv : source = v
    · subst hv
      cases hcount : sort.count[source]? with
      | none =>
        have hnot : source ∉ sort.count := fun hmem => by
          rw [Std.TreeMap.mem_iff_isSome_getElem?, hcount] at hmem
          cases hmem
        simp [hnot]
      | some c =>
        have hmem : source ∈ sort.count := Std.TreeMap.mem_iff_isSome_getElem?.mpr (by rw [hcount]; rfl)
        simp [hmem]
    · simp [hv]
  constructor
  · intro u
    show (sort.edges.insert source _)[u]?.getD [] = _
    rw [HashMap.getElem?_insert]
    unfold targets
    rw [filter_append, map_append]
    split_ifs with hu
    · subst hu
      simp only [filter_cons]
      rw [h.edges source]
      rfl
    · simp only [filter_cons, hu, decide_false, Bool.false_eq_true, if_false, filter_nil, map_nil,
        append_nil]
      exact h.edges u
  · intro v
    have hold : ((sort.count.insertIfNew source 0)[v]?).getD 0 = pending es [] [] v := by
      rw [← h.count v, hnew]
      split_ifs <;> rfl
    have hmore : pending (es ++ [(source, target)]) [] [] v = pending es [] [] v + if target = v then 1 else 0 := by
      simp [pending]
    show ((sort.count.insertIfNew source 0).insert target _)[v]?.getD 0 = _
    rw [HashMap.getElem?_insert, hmore, ← hold]
    split_ifs with hv
    · rw [hv]
      rfl
    · rfl
  · intro e he v hv
    show ((sort.count.insertIfNew source 0).insert target _)[v]?.isSome = true
    rw [HashMap.getElem?_insert]
    split_ifs with htarget
    · rfl
    · rw [hnew]
      split_ifs with hsource
      · rfl
      rcases mem_append.mp he with he | he
      · exact h.node e he v hv
      · obtain rfl := mem_singleton.mp he
        exact hv.elim (fun hv => absurd hv.symm hsource) fun hv => absurd hv.symm htarget

theorem of_ofEdges (es : List (T × T)) : Of es (ofEdges es) := by
  induction es using List.reverseRecOn with
  | nil =>
    refine ⟨fun u => ?_, fun v => ?_, nofun⟩
    · rfl
    · rfl
  | append_singleton es e ih =>
    unfold ofEdges
    rw [foldl_append]
    exact ih.insert e.1 e.2

theorem Of.sorting (h : Of es sort) : Sorting es [] [] sort.intoIterator := by
  have hcount {v : T} {c : ℕ} (hc : sort.count[v]? = some c) : c = pending es [] [] v := by
    rw [← h.count v, hc]
    rfl
  have hwait (v : T) : v ∈ sort.intoIterator.noEdges ↔ sort.count[v]? = some 0 := by
    unfold intoIterator
    simp
  refine ⟨h.edges, fun v c hc => ?_, fun v hv => ?_, ?_, fun _ _ _ => not_mem_nil, fun e he v hv => .inr ?_⟩
  · obtain ⟨hc, hpos⟩ := HashMap.getElem?_retain.mp hc
    rw [bne_iff_ne] at hpos
    exact ⟨hcount hc, by omega⟩
  · exact ⟨(hcount ((hwait v).mp hv)).symm, not_mem_nil⟩
  · exact (HashMap.nodup_map_fst_toList _).sublist (filter_sublist.map _)
  · obtain ⟨c, hc⟩ := Option.isSome_iff_exists.mp (h.node e he v hv)
    by_cases hzero : c = 0
    · subst hzero
      exact .inl ((hwait v).mpr hc)
    · refine .inr (Option.isSome_iff_exists.mpr ⟨c, HashMap.getElem?_retain.mpr ⟨hc, ?_⟩⟩)
      rwa [bne_iff_ne]

/-- **Nodes are visited in order.** -/
theorem inOrder_toList (es : List (T × T)) : InOrder es [] (ofEdges es).toList :=
  (TopologicalSortIterator.take_spec (of_ofEdges es).sorting le_rfl).1

theorem exists_edge_of_notMem {e : T × T} {v : T} (he : e ∈ es) (hv : v = e.1 ∨ v = e.2)
    (hnot : v ∉ (ofEdges es).toList) : ∃ e ∈ es, e.2 = v ∧ e.1 ∉ (ofEdges es).toList := by
  obtain ⟨d, hd, htarget, -, hsource⟩ := (TopologicalSortIterator.take_spec (of_ofEdges es).sorting le_rfl).2 e he v hv
    not_mem_nil hnot
  exact ⟨d, hd, htarget, hsource⟩

omit [Ord T] [Std.TransOrd T] [Std.LawfulEqOrd T] [DecidableEq T] in
theorem InOrder.acc {l : List T} : ∀ {done : List T}, (∀ u ∈ done, Acc (fun u v => (u, v) ∈ es) u) → InOrder es done l →
    ∀ v ∈ l, Acc (fun u v => (u, v) ∈ es) v := by
  induction l with
  | nil => nofun
  | cons node l ih =>
    rintro done hdone ⟨-, hnode, hrest⟩ v hv
    have hacc : Acc (fun u v => (u, v) ∈ es) node := ⟨_, fun u hu => hdone u (hnode _ hu rfl)⟩
    rcases mem_cons.mp hv with rfl | hv
    · exact hacc
    · exact ih (forall_mem_cons.mpr ⟨hacc, hdone⟩) hrest v hv

theorem mem_toList_of_acc {e : T × T} {v : T} (he : e ∈ es) (hv : v = e.1 ∨ v = e.2)
    (hacc : Acc (fun u v => (u, v) ∈ es) v) : v ∈ (ofEdges es).toList := by
  induction hacc generalizing e with
  | intro v _ ih =>
    by_contra hnot
    obtain ⟨d, hd, rfl, hsource⟩ := exists_edge_of_notMem he hv hnot
    exact hsource (ih d.1 hd hd (.inl rfl))

/-- **What is visited:** the nodes to which no cycle leads, once each and in order. -/
theorem toList_spec (es : List (T × T)) : InOrder es [] (ofEdges es).toList ∧
    ∀ e ∈ es, ∀ v, v = e.1 ∨ v = e.2 → (v ∈ (ofEdges es).toList ↔ Acc (fun u v => (u, v) ∈ es) v) :=
  ⟨inOrder_toList es, fun _ he v hv => ⟨InOrder.acc (by simp) (inOrder_toList es) v, mem_toList_of_acc he hv⟩⟩

theorem toList_cycle : 2 ∈ (ofEdges [(0, 1), (1, 0), (1, 2)]).toList ↔
    Acc (fun u v => (u, v) ∈ [(0, 1), (1, 0), (1, 2)]) 2 :=
  (toList_spec _).2 (1, 2) (by decide) 2 (.inr rfl)

end TopologicalSort

end

end MailServer.Utils
