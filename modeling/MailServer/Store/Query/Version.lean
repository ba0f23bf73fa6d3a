import MailServer.Store.Query.Changes

/-!
# What a client knows

The version of an id is the change that last touched it.  A client that knew the versions before some
entries of the log, and fetches what the entries report, knows the versions after them.

* `version`: the version of an id after a history.
* `version_of_unread`: an id that is not reported has kept its version.
* `version_of_last_delete`: an id whose last report is a delete is gone.
* `page_between`: the part of a range between the ids that a reader remembers is read alike.
-/

namespace MailServer.Store.Query

open MailServer.Lib MailServer.Utils MailServer.Store.Write List

variable {share : Bool}

/-- What an entry makes of the version of an id. -/
def touch (v : Option ℕ) (changeId : ℕ) (l : List Kind) : Option ℕ :=
  if l = [] then v else if presentAfter v.isSome l then some changeId else none

/-- The version of an id after some entries. -/
def version (k : Key) (v : Option ℕ) (es : List (Stored share)) : Option ℕ :=
  es.foldl (fun v e => touch v e.id (events k e.log)) v

/-- The events of an id, entry by entry. -/
def seen (k : Key) (es : List (Stored share)) : List (List Kind) := es.map fun e => events k e.log

theorem version_append (k : Key) (v : Option ℕ) (es fs : List (Stored share)) :
    version k v (es ++ fs) = version k (version k v es) fs :=
  foldl_append

theorem seen_append (k : Key) (es fs : List (Stored share)) : seen k (es ++ fs) = seen k es ++ seen k fs :=
  map_append

theorem isSome_touch (v : Option ℕ) (changeId : ℕ) (l : List Kind) :
    (touch v changeId l).isSome = presentAfter v.isSome l := by
  unfold touch
  split_ifs with hnil hpresent
  · rw [hnil]
    rfl
  · rw [hpresent]
    rfl
  · exact (Bool.eq_false_iff.mpr hpresent).symm

theorem isSome_version (k : Key) (v : Option ℕ) (es : List (Stored share)) :
    (version k v es).isSome = presentAfter v.isSome (seen k es).flatten := by
  induction es generalizing v with
  | nil => rfl
  | cons e es ih =>
    have hcons : (seen k (e :: es)).flatten = events k e.log ++ (seen k es).flatten := rfl
    rw [hcons, presentAfter_append, ← isSome_touch v e.id]
    exact ih _

variable {es : List (Stored share)} {isContainer : Bool} {base : Changes} {c : ℕ}

theorem version_of_unseen {k : Key} (h : ∀ e ∈ es, events k e.log = [])
    (v : Option ℕ) : version k v es = v := by
  induction es with
  | nil => rfl
  | cons e es ih =>
    have hhead : touch v e.id (events k e.log) = v := if_pos (h e mem_cons_self)
    show version k (touch v e.id (events k e.log)) es = v
    rw [hhead]
    exact ih fun e' he' => h e' (mem_cons_of_mem _ he')

/-! ## What is read and what is not -/

/-- **What is not read has not changed.** -/
theorem version_of_run_nil {k : Key} {v : Option ℕ} (h : Alternates v.isSome (seen k es).flatten)
    (hrun : run (seen k es) = []) : version k v es = v := by
  rcases v with _ | id
  · have hnet : net false (seen k es).flatten = none := by
      rw [run_of_absent h] at hrun
      exact Option.toList_eq_nil_iff.mp hrun
    have hpresent : presentAfter false (seen k es).flatten = false := by
      unfold net at hnet
      cases hp : presentAfter false (seen k es).flatten
      · rfl
      · simp only [hp] at hnet
        cases hnet
    have hsome := isSome_version k none es
    rw [Option.isSome_none, hpresent] at hsome
    exact Option.isSome_eq_false_iff.mp hsome |> Option.isNone_iff_eq_none.mp
  · have hof := runOf_run h
    rw [hrun] at hof
    have hproperty : ¬ DeletedAfterProperty (seen k es) := by
      intro hp
      exact absurd (hof.afterProperty hp) (by decide)
    have habsent : ¬ Absent (seen k es) := by
      intro ha
      have := hof.afterAbsent hproperty ha
      split_ifs at this
    have hpresent : presentAfter true (seen k es).flatten = true := by
      by_contra hgone
      exact habsent ⟨_, prefix_rfl, Bool.eq_false_iff.mpr hgone⟩
    have hnet := hof.always habsent
    rw [net_of_present hpresent] at hnet
    split_ifs at hnet with hflatten
    · apply version_of_unseen
      intro e he
      have := flatten_eq_nil_iff.mp hflatten (events k e.log) (mem_map_of_mem he)
      exact this
    · cases hnet
    · cases hnet

theorem getLast?_updateKinds {b : Bool} {s : List Kind} (h : s.getLast? ≠ some .delete) :
    (updateKinds b s).getLast? ≠ some .delete := by
  unfold updateKinds
  rcases s.find? Kind.isLive with _ | x
  · cases b <;> simp
  · cases x
    case insert => exact h
    all_goals cases b <;> simp

/-- **What is there at the end was not last reported as deleted.** -/
theorem getLast?_run {present : Bool} {bs : List (List Kind)} (h : Alternates present bs.flatten)
    (hpresent : presentAfter present bs.flatten = true) : (run bs).getLast? ≠ some .delete := by
  induction bs using List.reverseRecOn with
  | nil => simp [run]
  | append_singleton bs l ih =>
    rw [flatten_concat] at h hpresent
    obtain ⟨hbs, hl⟩ := alternates_append.mp h
    rw [presentAfter_append] at hpresent
    have hsummary := summary_batchBits hl
    have hupdates (i u p : Bool) (hi : (if i then run bs ++ [.insert] else run bs).getLast? ≠ some .delete) :
        (Bits.entry ⟨i, u, p, false⟩ (run bs)).getLast? ≠ some .delete := by
      cases u <;> cases p
      · exact hi
      · exact getLast?_updateKinds hi
      · exact getLast?_updateKinds hi
      · exact getLast?_updateKinds (getLast?_updateKinds hi)
    rw [run_concat]
    unfold Summary at hsummary
    rcases hb : batchBits l with ⟨i, u, p, d⟩
    rw [hb] at hsummary
    cases hbefore : presentAfter present bs.flatten
    · rw [hbefore] at hsummary hpresent
      simp only [hpresent] at hsummary
      obtain ⟨rfl, rfl⟩ : i = true ∧ d = false := hsummary
      exact hupdates _ _ _ (by simp)
    · rw [hbefore] at hsummary hpresent
      simp only [hpresent] at hsummary
      obtain ⟨rfl, rfl, -, -⟩ := hsummary
      exact hupdates _ _ _ (ih hbs hbefore)

/-! ## The changes of some entries -/

/-- The changes of some entries, after those of others. -/
def read (l : List Change) (es : List (Stored share)) : List Change := es.foldl (fun l e => e.absorb l) l

theorem read_append (l : List Change) (es fs : List (Stored share)) :
    read l (es ++ fs) = read (read l es) fs :=
  foldl_append

theorem changes_addAll (c : Changes) (es : List (Stored share)) :
    (c.addAll es).changes = read c.changes es := by
  induction es generalizing c with
  | nil => rfl
  | cons e es ih => exact ih (c.add e)

theorem kinds_absorb_stored (k : Key) (l : List Change) (e : Stored share) :
    kinds k (e.absorb l) = (batchBits (events k e.log)).entry (kinds k l) := by
  unfold Stored.absorb Stored.log
  rcases e.content with batch | ⟨notification, hne⟩
  · rw [kinds_absorb, bits_ofLog]
    rfl
  · rw [kinds_concat]
    show (if Key.item (UInt64.ofNat e.id) = k then kinds k l ++ [Kind.insert] else kinds k l) = _
    by_cases hk : Key.item (UInt64.ofNat e.id) = k
    · have hevents : events k [.insertItem (UInt64.ofNat e.id)] = [.insert] := by
        rw [← hk]
        simp [events, changeKey, changeKind]
      rw [if_pos hk, hevents]
      rfl
    · have hevents : events k [.insertItem (UInt64.ofNat e.id)] = [] := by
        have hkey : changeKey (.insertItem (UInt64.ofNat e.id)) ≠ k := hk
        simp [events, hkey]
      rw [if_neg hk, hevents]
      rfl

theorem kinds_read (k : Key) (es : List (Stored share)) : kinds k (read [] es) = run (seen k es) := by
  induction es using List.reverseRecOn with
  | nil => rfl
  | append_singleton es e ih =>
    rw [read_append, seen_append]
    show kinds k (e.absorb (read [] es)) = run (seen k es ++ [events k e.log])
    rw [run_concat, kinds_absorb_stored, ih]

/-! ## Containers and items apart -/

/-- What a client asks for. -/
def Change.relevant (isContainer : Bool) (c : Change) : Bool :=
  (isContainer && c.isContainerChange) || (!isContainer && c.isItemChange)

def keyOf (isContainer : Bool) (id : UInt64) : Key := if isContainer then .container id else .item id

/-- What is reported of some entries to a client. -/
def page (isContainer : Bool) (es : List (Stored share)) : List Change :=
  (read [] es).filter (Change.relevant isContainer)

theorem relevant_of_key {id : UInt64} {c : Change}
    (h : c.key = keyOf isContainer id) : c.relevant isContainer = true := by
  cases isContainer <;> cases c <;> first | rfl | exact Key.noConfusion h

theorem kinds_filter_relevant (isContainer : Bool) (id : UInt64) (l : List Change) :
    kinds (keyOf isContainer id) (l.filter (Change.relevant isContainer)) = kinds (keyOf isContainer id) l := by
  unfold kinds
  rw [filterMap_filter]
  apply filterMap_congr
  intro c _
  by_cases hk : c.key = keyOf isContainer id
  · rw [if_pos (relevant_of_key hk)]
  · simp [hk]

theorem kinds_page (isContainer : Bool) (id : UInt64) (es : List (Stored share)) :
    kinds (keyOf isContainer id) (page isContainer es) = run (seen (keyOf isContainer id) es) := by
  unfold page
  rw [kinds_filter_relevant, kinds_read]

theorem filter_eraseP_of_disjoint {P Q : Change → Bool} (h : ∀ c, Q c = true → P c = false) (l : List Change) :
    (l.eraseP Q).filter P = l.filter P := by
  induction l with
  | nil => rfl
  | cons c l ih =>
    by_cases hq : Q c
    · rw [eraseP_cons_of_pos hq, filter_cons, if_neg (Bool.eq_false_iff.mp (h c hq))]
    · rw [eraseP_cons_of_neg hq, filter_cons, filter_cons, ih]

section

variable {P : Change → Bool}

theorem filter_concat_of_not {c : Change} (hc : P c = false) (l : List Change) :
    (l ++ [c]).filter P = l.filter P := by
  simp [hc]

section

variable (hP : ∀ c, c.isItemChange = true → P c = false) (l : List Change) (id : UInt64)
include hP

theorem filter_insertItem :
    (insertItem l id).filter P = l.filter P :=
  filter_concat_of_not (hP _ rfl) l

theorem filter_changeItem : (updateItem l id).filter P = l.filter P ∧ (deleteItem l id).filter P = l.filter P := by
  have herase := filter_eraseP_of_disjoint (P := P) (Q := meetsItem id)
    (fun c hc => hP c (by cases c <;> first | rfl | exact absurd hc Bool.false_ne_true)) l
  have hconcat {c : Change} (hc : P c = false) : (l.eraseP (meetsItem id) ++ [c]).filter P = l.filter P := by
    rw [filter_concat_of_not hc, herase]
  constructor
  · unfold updateItem
    split
    · rfl
    · exact hconcat (hP _ rfl)
    · exact filter_concat_of_not (hP _ rfl) l
  · unfold deleteItem
    split
    · exact herase
    · exact hconcat (hP _ rfl)
    · exact filter_concat_of_not (hP _ rfl) l

end

section

variable (hP : ∀ c, c.isContainerChange = true → P c = false)
include hP

theorem filter_insertContainer (l : List Change)
    (id : UInt64) : (insertContainer l id).filter P = l.filter P :=
  filter_concat_of_not (hP _ rfl) l

theorem filter_updateContainer (b : Bool)
    (l : List Change) (id : UInt64) : (updateContainer b l id).filter P = l.filter P := by
  have herase := filter_eraseP_of_disjoint (P := P) (Q := meetsContainerUpdate id)
    (fun c hc => hP c (by cases c <;> first | rfl | exact absurd hc Bool.false_ne_true)) l
  have hupdate : P (if b then .updateContainerProperty id else .updateContainer id) = false := by
    cases b <;> exact hP _ rfl
  unfold updateContainer
  simp only
  split
  · rfl
  · rw [filter_concat_of_not (hP _ rfl), herase]
  · rw [filter_concat_of_not hupdate, herase]
  · exact filter_concat_of_not hupdate l

theorem filter_deleteContainer (l : List Change)
    (id : UInt64) : (deleteContainer l id).filter P = l.filter P := by
  have herase := filter_eraseP_of_disjoint (P := P) (Q := meetsContainerDelete id)
    (fun c hc => hP c (by cases c <;> first | rfl | exact absurd hc Bool.false_ne_true)) l
  unfold deleteContainer
  split
  · exact herase
  · rw [filter_concat_of_not (hP _ rfl), herase]
  · exact filter_concat_of_not (hP _ rfl) l

end

theorem filter_foldl {f : List Change → UInt64 → List Change}
    (hf : ∀ l id, (f l id).filter P = l.filter P) (ids : List UInt64) (l : List Change) :
    (ids.foldl f l).filter P = l.filter P := by
  induction ids generalizing l with
  | nil => rfl
  | cons id ids ih => exact (ih (f l id)).trans (hf l id)

end

theorem filter_absorb {c : Write.Changes}
    (h : (if isContainer then c.hasContainerChanges else c.hasItemChanges) = false)
    (o : HashOrder UInt32) (p : HashOrder UInt64) (l : List Change) :
    (absorb o p l c).filter (Change.relevant isContainer) = l.filter (Change.relevant isContainer) := by
  cases isContainer
  · have hP : ∀ c : Change, c.isContainerChange = true → c.relevant false = false := by
      intro c hc
      cases c <;> first | rfl | exact absurd hc Bool.false_ne_true
    have hempty : c.itemInserts = ∅ ∧ c.itemUpdates = ∅ ∧ c.itemDeletes = ∅ := by
      simpa [Changes.hasItemChanges] using h
    obtain ⟨hinserts, hupdates, hdeletes⟩ := hempty
    unfold absorb absorbIds
    simp only [hinserts, hupdates, hdeletes, HashOrder.iter_empty, foldl_nil]
    rw [filter_foldl (filter_deleteContainer hP), filter_foldl (filter_updateContainer hP true),
      filter_foldl (filter_updateContainer hP false), filter_foldl (filter_insertContainer hP)]
  · have hP : ∀ c : Change, c.isItemChange = true → c.relevant true = false := by
      intro c hc
      cases c <;> first | rfl | exact absurd hc Bool.false_ne_true
    have hempty : c.containerInserts = ∅ ∧ c.containerUpdates = ∅ ∧ c.containerPropertyChanges = ∅ ∧
        c.containerDeletes = ∅ := by
      simpa [Changes.hasContainerChanges] using h
    obtain ⟨hinserts, hupdates, hproperties, hdeletes⟩ := hempty
    unfold absorb absorbIds
    simp only [hinserts, hupdates, hproperties, hdeletes, HashOrder.iter_empty, map_nil, foldl_nil]
    rw [filter_foldl fun l id => (filter_changeItem hP l id).2, filter_foldl fun l id => (filter_changeItem hP l id).1,
      filter_foldl (filter_insertItem hP)]

theorem batchBits_ne {l : List Kind} (h : l ≠ []) : batchBits l ≠ ⟨false, false, false, false⟩ := by
  induction l using List.reverseRecOn with
  | nil => exact absurd rfl h
  | append_singleton l e _ =>
    have hstep : batchBits (l ++ [e]) = (batchBits l).step e := by simp [batchBits]
    rw [hstep]
    rcases batchBits l with ⟨i, u, p, d⟩
    cases e <;> cases d <;> simp [Bits.step]

theorem events_eq_nil {l : List LogChange}
    (h : (if isContainer then (Changes.ofLog l).hasContainerChanges
      else (Changes.ofLog l).hasItemChanges) = false) (id : UInt64) :
    events (keyOf isContainer id) l = [] := by
  by_contra hne
  have hbits := bits_ofLog (keyOf isContainer id) l
  refine batchBits_ne hne (hbits.symm.trans ?_)
  cases isContainer
  · have hempty : (Changes.ofLog l).itemInserts = ∅ ∧ (Changes.ofLog l).itemUpdates = ∅ ∧
        (Changes.ofLog l).itemDeletes = ∅ := by
      simpa [Changes.hasItemChanges] using h
    obtain ⟨hinserts, hupdates, hdeletes⟩ := hempty
    simp [keyOf, bits, hinserts, hupdates, hdeletes]
  · have hempty : (Changes.ofLog l).containerInserts = ∅ ∧ (Changes.ofLog l).containerUpdates = ∅ ∧
        (Changes.ofLog l).containerPropertyChanges = ∅ ∧ (Changes.ofLog l).containerDeletes = ∅ := by
      simpa [Changes.hasContainerChanges] using h
    obtain ⟨hinserts, hupdates, hproperties, hdeletes⟩ := hempty
    simp [keyOf, bits, hinserts, hupdates, hproperties, hdeletes]

/-- An entry without changes of one sort. -/
structure Silent (isContainer : Bool) (e : Stored share) : Prop where
  absorb : ∀ l, (e.absorb l).filter (Change.relevant isContainer) = l.filter (Change.relevant isContainer)
  events : ∀ id, events (keyOf isContainer id) e.log = []

theorem silent_of_hasChanges {e : Stored share} (hshare : share = false)
    (h : e.hasChanges isContainer = false) : Silent isContainer e := by
  have hsync := e.isShare
  unfold Stored.hasChanges at h
  constructor
  · intro l
    unfold Stored.absorb
    rcases hc : e.content with batch | ⟨notification, hne⟩
    · rw [hc] at h
      exact filter_absorb h _ _ l
    · rw [hc, hshare] at hsync
      cases hsync
  · intro id
    unfold Stored.log
    rcases hc : e.content with batch | ⟨notification, hne⟩
    · rw [hc] at h
      exact events_eq_nil h id
    · rw [hc, hshare] at hsync
      cases hsync

theorem filter_read_silent (h : ∀ e ∈ es, Silent isContainer e) (l : List Change) :
    (read l es).filter (Change.relevant isContainer) = l.filter (Change.relevant isContainer) := by
  induction es generalizing l with
  | nil => rfl
  | cons e es ih =>
    have hrest := ih (fun x hx => h x (mem_cons_of_mem _ hx)) (e.absorb l)
    exact hrest.trans ((h e mem_cons_self).absorb l)

theorem page_append_silent {fs : List (Stored share)}
    (h : ∀ e ∈ fs, Silent isContainer e) : page isContainer (es ++ fs) = page isContainer es := by
  unfold page
  rw [read_append, filter_read_silent h]

theorem version_silent (h : ∀ e ∈ es, Silent isContainer e) (id : UInt64) (v : Option ℕ) :
    version (keyOf isContainer id) v es = v :=
  version_of_unseen (fun e he => (h e he).events id) v

/-! ## What a reader remembers -/

/-- The id up to which the changes of one sort were read. -/
def Changes.changeId (isContainer : Bool) (c : Changes) : ℕ :=
  (if isContainer then c.containerChangeId else c.itemChangeId).getD c.toChangeId

theorem toChangeId_addAll_concat (c : Changes) (es : List (Stored share)) (e : Stored share) :
    (c.addAll (es ++ [e])).toChangeId = e.id := by
  rw [Changes.addAll_concat]
  rfl

theorem sortId_addAll (isContainer : Bool)
    (hbase : (if isContainer then base.containerChangeId else base.itemChangeId) = none)
    (es : List (Stored share)) :
    ((if isContainer then (base.addAll es).containerChangeId
        else (base.addAll es).itemChangeId) = none ∧ ∀ x ∈ es, x.hasChanges isContainer = false) ∨
      ∃ fs e gs, es = fs ++ e :: gs ∧ e.hasChanges isContainer = true ∧
        (if isContainer then (base.addAll es).containerChangeId
          else (base.addAll es).itemChangeId) = some e.id ∧
        ∀ x ∈ gs, x.hasChanges isContainer = false := by
  induction es using List.reverseRecOn with
  | nil => exact .inl ⟨hbase, fun x hx => absurd hx not_mem_nil⟩
  | append_singleton es e ih =>
    have hadd : (if isContainer then ((base.addAll es).add e).containerChangeId
        else ((base.addAll es).add e).itemChangeId) =
        if e.hasChanges isContainer then some e.id
        else if isContainer then (base.addAll es).containerChangeId
          else (base.addAll es).itemChangeId := by
      cases isContainer <;> rfl
    rw [Changes.addAll_concat, hadd]
    cases he : e.hasChanges isContainer
    · rcases ih with ⟨hnone, hes⟩ | ⟨fs, x, gs, rfl, hx, hid, hgs⟩
      · refine .inl ⟨hnone, fun y hy => ?_⟩
        rcases mem_append.mp hy with hy | hy
        · exact hes y hy
        · exact mem_singleton.mp hy ▸ he
      · refine .inr ⟨fs, x, gs ++ [e], by simp, hx, hid, ?_⟩
        intro y hy
        rcases mem_append.mp hy with hy | hy
        · exact hgs y hy
        · obtain rfl := mem_singleton.mp hy
          exact he
    · exact .inr ⟨es, e, [], rfl, he, by simp, fun x hx => absurd hx not_mem_nil⟩

theorem FromBase.changes_eq (h : FromBase c base) : base.changes = [] := by
  rcases h with rfl | rfl <;> rfl

theorem FromBase.sortId (h : FromBase c base) (isContainer : Bool) :
    (if isContainer then base.containerChangeId else base.itemChangeId) = none := by
  rcases h with rfl | rfl <;> cases isContainer <;> rfl

/-- **Where a page ends**: behind it nothing of its sort changes. -/
theorem changeId_addAll (isContainer : Bool) (hbase : FromBase c base) (hne : es ≠ []) :
    ∃ fs e gs, es = fs ++ e :: gs ∧ e.id = (base.addAll es).changeId isContainer ∧
      ∀ x ∈ gs, Silent isContainer x := by
  unfold Changes.changeId
  rcases sortId_addAll isContainer (hbase.sortId isContainer) es with ⟨hnone, -⟩ | ⟨fs, e, gs, heq, he, hid, hgs⟩
  · rw [hnone]
    rcases eq_nil_or_concat' es with rfl | ⟨fs, e, rfl⟩
    · exact absurd rfl hne
    · exact ⟨fs, e, [], rfl, (toChangeId_addAll_concat base fs e).symm, fun x hx =>
        absurd hx not_mem_nil⟩
  · have hshare : share = false := by
      have hsync := e.isShare
      unfold Stored.hasChanges at he
      rcases hc : e.content with batch | ⟨notification, hn⟩
      · rw [hc] at hsync
        exact hsync.symm
      · rw [hc] at he
        cases he
    rw [hid]
    exact ⟨fs, e, gs, heq, rfl, fun x hx => silent_of_hasChanges hshare (hgs x hx)⟩

/-- **Where a page starts**: before it nothing is left to report. -/
theorem fromChangeId_addAll (hbase : FromBase c base) (hne : es ≠ []) :
    ∃ fs e gs, es = fs ++ e :: gs ∧ e.id = (base.addAll es).fromChangeId ∧ read [] fs = [] := by
  induction es using List.reverseRecOn with
  | nil => exact absurd rfl hne
  | append_singleton es e ih =>
    have hread : (base.addAll es).changes = read [] es := by
      rw [changes_addAll, hbase.changes_eq]
    have hadd : (base.addAll (es ++ [e])).fromChangeId =
        if (read [] es).isEmpty then e.id else (base.addAll es).fromChangeId := by
      rw [Changes.addAll_concat, ← hread]
      rfl
    rw [hadd]
    by_cases hnil : read [] es = []
    · refine ⟨es, e, [], rfl, ?_, hnil⟩
      rw [hnil]
      rfl
    · have hes : es ≠ [] := by
        rintro rfl
        exact hnil rfl
      obtain ⟨fs, x, gs, rfl, hid, hfs⟩ := ih hes
      refine ⟨fs, x, gs ++ [e], by simp, ?_, hfs⟩
      rw [if_neg (by rwa [List.isEmpty_iff]), hid]

theorem filter_le_append (hasc : Ascending es) (c : ℕ) :
    es = (es.filter fun e => e.id ≤ c) ++ es.filter fun e => c < e.id := by
  induction es with
  | nil => rfl
  | cons e es ih =>
    obtain ⟨hhead, htail⟩ := pairwise_cons.mp hasc
    by_cases he : e.id ≤ c
    · have hgt : ¬ c < e.id := by omega
      rw [filter_cons_of_pos (by simpa using he), filter_cons_of_neg (by simpa using hgt),
        cons_append, ← ih htail]
    · have hgt : c < e.id := by omega
      have hnil : (es.filter fun e => e.id ≤ c) = [] := by
        rw [filter_eq_nil_iff]
        intro x hx
        have := hhead x hx
        rw [decide_eq_true_iff]
        omega
      have hself : (es.filter fun e => c < e.id) = es := by
        rw [filter_eq_self]
        intro x hx
        have := hhead x hx
        rw [decide_eq_true_iff]
        omega
      rw [filter_cons_of_neg (by simpa using he), filter_cons_of_pos (by simpa using hgt),
        hnil, hself, nil_append]

section

variable {pre es post : List (Stored share)} {c : ℕ} {base : Changes} (isContainer : Bool)

theorem silent_of_gt (hasc : Ascending es) (hbase : FromBase c base) (hne : es ≠ []) :
    ∀ e ∈ es.filter (fun e => (base.addAll es).changeId isContainer < e.id), Silent isContainer e := by
  obtain ⟨fs, x, gs, heq, hid, hgs⟩ := changeId_addAll isContainer hbase hne
  intro e he
  obtain ⟨hmem, hgt⟩ := mem_filter.mp he
  rw [decide_eq_true_iff] at hgt
  rw [heq] at hmem hasc
  obtain ⟨-, -, hbefore⟩ := pairwise_append.mp hasc
  rcases mem_append.mp hmem with hmem | hmem
  · have := hbefore e hmem x mem_cons_self
    omega
  · rcases mem_cons.mp hmem with rfl | hmem
    · omega
    · exact hgs e hmem

/-- **A range is read alike** from where its page starts to where it ends. -/
theorem page_between (hasc : Ascending (pre ++ es ++ post)) (hbase : FromBase c base) (hne : es ≠ []) :
    page isContainer (between (pre ++ es ++ post) (base.addAll es).fromChangeId
      ((base.addAll es).changeId isContainer)) = page isContainer es := by
  obtain ⟨hpreEs, -, hpost⟩ := pairwise_append.mp hasc
  obtain ⟨-, hes, hpre⟩ := pairwise_append.mp hpreEs
  have hsilent := silent_of_gt isContainer hes hbase hne
  obtain ⟨fs, x, gs, heq, hid, hread⟩ := fromChangeId_addAll hbase hne
  obtain ⟨ls, y, rs, heq', hid', -⟩ := changeId_addAll isContainer hbase hne
  set a := (base.addAll es).fromChangeId
  set b := (base.addAll es).changeId isContainer
  have hx : x ∈ es := by rw [heq]; simp
  have hy : y ∈ es := by rw [heq']; simp
  rw [heq] at hes
  obtain ⟨-, htail, hfs⟩ := pairwise_append.mp hes
  have hxgs := (pairwise_cons.mp htail).1
  have hbetween : between (pre ++ es ++ post) a b = (x :: gs).filter fun e => e.id ≤ b := by
    have hbefore : between pre a b = [] := by
      rw [between, filter_eq_nil_iff]
      intro e he
      have := hpre e he x hx
      rw [decide_eq_true_iff]
      omega
    have hafter : between post a b = [] := by
      rw [between, filter_eq_nil_iff]
      intro e he
      have := hpost y (mem_append_right _ hy) e he
      rw [decide_eq_true_iff]
      omega
    have hfirst : between fs a b = [] := by
      rw [between, filter_eq_nil_iff]
      intro e he
      have := hfs e he x mem_cons_self
      rw [decide_eq_true_iff]
      omega
    have hrest : between (x :: gs) a b = (x :: gs).filter fun e => e.id ≤ b := by
      apply filter_congr
      intro e he
      have hle : a ≤ e.id := by
        rcases mem_cons.mp he with rfl | he
        · omega
        · have := hxgs e he
          omega
      rw [Bool.eq_iff_iff, decide_eq_true_iff, decide_eq_true_iff]
      exact ⟨fun h => h.2, fun h => ⟨hle, h⟩⟩
    have happend (l m : List (Stored share)) : between (l ++ m) a b = between l a b ++ between m a b :=
      filter_append _ _
    rw [happend, happend, hbefore, hafter, heq, happend, hfirst, hrest, nil_append,
      nil_append, append_nil]
  have hes' : page isContainer es = page isContainer (x :: gs) := by
    unfold page
    rw [heq, read_append, hread]
  have hcut : ∀ e ∈ (x :: gs).filter (fun e => b < e.id), Silent isContainer e := by
    intro e he
    obtain ⟨hmem, hgt⟩ := mem_filter.mp he
    have hmem' : e ∈ es := by
      rw [heq]
      exact mem_append_right _ hmem
    exact hsilent e (mem_filter.mpr ⟨hmem', hgt⟩)
  rw [hbetween, hes']
  conv_rhs => rw [filter_le_append htail b]
  exact (page_append_silent hcut).symm

/-- **The versions at the end of a page** are those after all its entries. -/
theorem version_changeId (hasc : Ascending (pre ++ es ++ post)) (hbase : FromBase c base) (hne : es ≠ [])
    (id : UInt64) :
    version (keyOf isContainer id) none
      ((pre ++ es ++ post).filter fun e => e.id ≤ (base.addAll es).changeId isContainer) =
      version (keyOf isContainer id) none (pre ++ es) := by
  obtain ⟨hpreEs, -, hpost⟩ := pairwise_append.mp hasc
  obtain ⟨-, hes, hpre⟩ := pairwise_append.mp hpreEs
  have hsilent := silent_of_gt isContainer hes hbase hne
  obtain ⟨ls, y, rs, heq', hid', -⟩ := changeId_addAll isContainer hbase hne
  set b := (base.addAll es).changeId isContainer
  have hy : y ∈ es := by rw [heq']; simp
  have hbefore : (pre.filter fun e => e.id ≤ b) = pre := by
    rw [filter_eq_self]
    intro e he
    have := hpre e he y hy
    rw [decide_eq_true_iff]
    omega
  have hafter : (post.filter fun e => e.id ≤ b) = [] := by
    rw [filter_eq_nil_iff]
    intro e he
    have := hpost y (mem_append_right _ hy) e he
    rw [decide_eq_true_iff]
    omega
  rw [filter_append, filter_append, hbefore, hafter, append_nil, version_append,
    version_append]
  conv_rhs => rw [filter_le_append hes b, version_append]
  exact (version_silent hsilent id _).symm

end

end MailServer.Store.Query
