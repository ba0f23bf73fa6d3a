import MailServer.Jmap.Changes

/-!
# A client that follows the changes

A client holds a state and a view: the version of every object it knows.  It fetches what an answer
reports as created or updated and drops what it reports as destroyed.

* `Synced`: what the client knows in its state.
* `synced_answer`: an answer from entries of the log keeps it so.
* `fresh_refresh`: what a cache that was brought up to date stands for.
-/

namespace MailServer.Jmap

open MailServer.Types MailServer.Store.Query MailServer.Common List Change

/-! ## Answers -/

/-- The versions of the objects of one sort at a change id. -/
def versionsAt {share : Bool} (isContainer : Bool) (h : List (Stored share)) (changeId : ℕ) (id : UInt64) :
    Option ℕ :=
  version (keyOf isContainer id) none (h.filter fun e => e.id ≤ changeId)

/-- Destroyed objects are dropped, then created and updated ones are fetched as of the new state. -/
def ChangesResponse.apply (versions : ℕ → UInt64 → Option ℕ) (r : ChangesResponse)
    (view : UInt64 → Option ℕ) (id : UInt64) : Option ℕ :=
  if id ∈ r.created ∨ id ∈ r.updated then versions r.newState.getChangeId id
  else if id ∈ r.destroyed then none
  else view id

variable {r : ChangesResponse} {isContainer : Bool}

theorem apply_unchanged (hr : r.created = [] ∧ r.updated = [] ∧ r.destroyed = [])
    (versions : ℕ → UInt64 → Option ℕ) (view : UInt64 → Option ℕ) (id : UInt64) :
    r.apply versions view id = view id := by
  unfold ChangesResponse.apply
  rw [hr.1, hr.2.1, hr.2.2]
  simp

theorem kinds_cons (k : Key) (c : Change) (l : List Change) :
    kinds k (c :: l) = (if c.key = k then [c.kind] else []) ++ kinds k l := by
  rw [← kinds_singleton, ← kinds_append]
  rfl

theorem mem_report {l : List Change} (hl : ∀ c ∈ l, c.relevant isContainer = true)
    (s : ChangesResponse × Bool) (id : UInt64) :
    (id ∈ (l.foldl report s).1.created ↔
      id ∈ s.1.created ∨ Kind.insert ∈ kinds (keyOf isContainer id) l) ∧
    (id ∈ (l.foldl report s).1.updated ↔ id ∈ s.1.updated ∨
      Kind.update ∈ kinds (keyOf isContainer id) l ∨ Kind.property ∈ kinds (keyOf isContainer id) l) ∧
    (id ∈ (l.foldl report s).1.destroyed ↔
      id ∈ s.1.destroyed ∨ Kind.delete ∈ kinds (keyOf isContainer id) l) := by
  induction l generalizing s with
  | nil => simp [kinds]
  | cons c l ih =>
    have hc := hl c mem_cons_self
    obtain ⟨hcreated, hupdated, hdestroyed⟩ := ih (fun x hx => hl x (mem_cons_of_mem _ hx)) (report s c)
    rw [foldl_cons, hcreated, hupdated, hdestroyed, kinds_cons]
    cases isContainer
    · cases c
      case insertItem i | updateItem i | deleteItem i =>
        by_cases hi : i = id
        · simp [report, key, kind, keyOf, hi]
        · have hne : id ≠ i := fun h => hi h.symm
          simp [report, key, keyOf, hi, hne]
      all_goals exact absurd hc Bool.false_ne_true
    · cases c
      case insertContainer i | updateContainer i | updateContainerProperty i | deleteContainer i =>
        by_cases hi : i = id
        · simp [report, key, kind, keyOf, hi]
        · have hne : id ≠ i := fun h => hi h.symm
          simp [report, key, keyOf, hi, hne]
      all_goals exact absurd hc Bool.false_ne_true

/-- **A page**: an id that no later page reports has the version it will have. -/
theorem apply_page {l : List Change} {n m : ℕ} (hl : ∀ c ∈ l, c.relevant isContainer = true)
    {target view : UInt64 → Option ℕ}
    (hlast : ∀ id, (kinds (keyOf isContainer id) l).getLast? = some .delete → target id = none)
    (hknown : ∀ id, kinds (keyOf isContainer id) (l.drop n) = [] → view id = target id)
    {s : ChangesResponse × Bool} (hs : s.1.created = [] ∧ s.1.updated = [] ∧ s.1.destroyed = [])
    (hcreated : r.created = (((l.drop n).take m).foldl report s).1.created)
    (hupdated : r.updated = (((l.drop n).take m).foldl report s).1.updated)
    (hdestroyed : r.destroyed = (((l.drop n).take m).foldl report s).1.destroyed)
    {versions : ℕ → UInt64 → Option ℕ}
    (hversions : ∀ id, versions r.newState.getChangeId id = target id) (id : UInt64)
    (hid : kinds (keyOf isContainer id) (l.drop (n + m)) = []) :
    r.apply versions view id = target id := by
  have hpage : ∀ c ∈ (l.drop n).take m, c.relevant isContainer = true := fun c hc =>
    hl c (mem_of_mem_drop (mem_of_mem_take hc))
  obtain ⟨hc, hu, hd⟩ := mem_report hpage s id
  rw [← hcreated, hs.1] at hc
  rw [← hupdated, hs.2.1] at hu
  rw [← hdestroyed, hs.2.2] at hd
  simp only [not_mem_nil, false_or] at hc hu hd
  have hsplit : l.drop n = (l.drop n).take m ++ l.drop (n + m) := by
    rw [← drop_drop]
    exact (take_append_drop m _).symm
  have hkinds : kinds (keyOf isContainer id) (l.drop n) =
      kinds (keyOf isContainer id) ((l.drop n).take m) := by
    conv_lhs => rw [hsplit, kinds_append, hid, append_nil]
  unfold ChangesResponse.apply
  split_ifs with hlive hgone
  · exact hversions id
  · -- everything reported of the id on this page is a delete, and it is the last page with the id
    have hall : ∀ x ∈ kinds (keyOf isContainer id) ((l.drop n).take m), x = .delete := by
      intro x hx
      cases x
      case delete => rfl
      case insert => exact absurd (.inl (hc.mpr hx)) hlive
      case update => exact absurd (.inr (hu.mpr (.inl hx))) hlive
      case property => exact absurd (.inr (hu.mpr (.inr hx))) hlive
    have hdelete := hd.mp hgone
    have hwhole : kinds (keyOf isContainer id) l =
        kinds (keyOf isContainer id) (l.take n) ++ kinds (keyOf isContainer id) ((l.drop n).take m) := by
      conv_lhs => rw [← take_append_drop n l, kinds_append, hkinds]
    refine (hlast id ?_).symm
    have hne : kinds (keyOf isContainer id) ((l.drop n).take m) ≠ [] := ne_nil_of_mem hdelete
    rw [hwhole, getLast?_append_of_ne_nil _ hne, getLast?_eq_getLast_of_ne_nil hne]
    exact congrArg some (hall _ (getLast_mem hne))
  · apply hknown id
    rw [hkinds, eq_nil_iff_forall_not_mem]
    intro x hx
    cases x
    case delete => exact hgone (hd.mpr hx)
    case insert => exact hlive (.inl (hc.mpr hx))
    case update => exact hlive (.inr (hu.mpr (.inl hx)))
    case property => exact hlive (.inr (hu.mpr (.inr hx)))

/-! ## What a client knows -/

section

variable {share : Bool} {isContainer : Bool} {h : List (Stored share)}

/-- The last change id of a history. -/
def lastId (h : List (Stored share)) : ℕ := (h.getLast?.map Stored.id).getD 0

/-- What a client knows in its state: in an intermediate state, the final versions of all objects that
the rest of the range does not report. -/
def Synced (isContainer : Bool) (h : List (Stored share)) (view : UInt64 → Option ℕ) : State → Prop
  | .initial => ∀ id, view id = none
  | .exact c => c ≤ lastId h ∧ ∀ id, view id = versionsAt isContainer h c id
  | .intermediate s =>
    s.toId ≤ lastId h ∧ s.itemsSent < (page isContainer (between h s.fromId s.toId)).length ∧
      ∀ id, kinds (keyOf isContainer id)
        ((page isContainer (between h s.fromId s.toId)).drop s.itemsSent) = [] →
        view id = versionsAt isContainer h s.toId id

/-- Ids are inserted while absent, and updated and deleted while present. -/
def Alternating (h : List (Stored share)) : Prop := ∀ k, Alternates false (seen k h).flatten

theorem le_lastId (hasc : Ascending h) {e : Stored share} (he : e ∈ h) : e.id ≤ lastId h := by
  rcases eq_nil_or_concat' h with rfl | ⟨fs, x, rfl⟩
  · exact absurd he not_mem_nil
  · have hlast : lastId (fs ++ [x]) = x.id := by simp [lastId]
    rw [hlast]
    obtain ⟨-, -, hbefore⟩ := pairwise_append.mp hasc
    rcases mem_append.mp he with he | he
    · exact (hbefore e he x (mem_singleton_self x)).le
    · rw [mem_singleton.mp he]

variable {es : List (Stored share)} {c maxChanges : ℕ} {base : Changes} {view : UInt64 → Option ℕ}
  {newState : State} {request : ChangesRequest} {object : MethodObject}
  {r : IntermediateChangesResponse}

theorem relevant_of_mem_page {c : Change} (hc : c ∈ page isContainer es) :
    c.relevant isContainer = true :=
  (mem_filter.mp hc).2

theorem version_of_last_delete (isContainer : Bool) {pre post : List (Stored share)}
    (halt : Alternating (pre ++ es ++ post)) (id : UInt64)
    (hlast : (kinds (keyOf isContainer id) (page isContainer es)).getLast? = some .delete) :
    version (keyOf isContainer id) none (pre ++ es) = none := by
  have hk := halt (keyOf isContainer id)
  rw [seen_append, seen_append, flatten_append, flatten_append] at hk
  obtain ⟨-, hes⟩ := alternates_append.mp (alternates_append.mp hk).1
  rw [kinds_page] at hlast
  have hgone : presentAfter (presentAfter false (seen (keyOf isContainer id) pre).flatten)
      (seen (keyOf isContainer id) es).flatten = false := by
    by_contra hpresent
    exact getLast?_run hes (Bool.not_eq_false _ ▸ hpresent) hlast
  have hsome := isSome_version (keyOf isContainer id) none (pre ++ es)
  rw [seen_append, flatten_append, Option.isSome_none, presentAfter_append, hgone] at hsome
  exact Option.isNone_iff_eq_none.mp (Option.isSome_eq_false_iff.mp hsome)

theorem version_of_unread (isContainer : Bool) {pre post : List (Stored share)}
    (halt : Alternating (pre ++ es ++ post)) (id : UInt64)
    (hunread : kinds (keyOf isContainer id) (page isContainer es) = []) :
    version (keyOf isContainer id) none (pre ++ es) = version (keyOf isContainer id) none pre := by
  have hk := halt (keyOf isContainer id)
  rw [seen_append, seen_append, flatten_append, flatten_append] at hk
  obtain ⟨-, hes⟩ := alternates_append.mp (alternates_append.mp hk).1
  rw [kinds_page] at hunread
  rw [version_append]
  have hsome := isSome_version (keyOf isContainer id) none pre
  rw [Option.isSome_none] at hsome
  rw [← hsome] at hes
  exact version_of_run_nil hes hunread

theorem ids_of_mem (isContainer : Bool) (hbase : FromBase c base) (hne : es ≠ []) :
    (base.addAll es).fromChangeId ≠ 0 ∧ ∃ e ∈ es, e.id = (base.addAll es).changeId isContainer := by
  obtain ⟨fs, x, gs, heq, hid, -⟩ := fromChangeId_addAll hbase hne
  obtain ⟨ls, y, rs, heq', hid', -⟩ := changeId_addAll isContainer hbase hne
  have hpos := x.pos
  refine ⟨by omega, y, ?_, hid'⟩
  rw [heq']
  simp

theorem isTruncated_of_fromBase (hbase : FromBase c base) : base.isTruncated = false := by
  rcases hbase with rfl | rfl <;> rfl

theorem apply_reported {pre post : List (Stored share)} (halt : Alternating (pre ++ es ++ post))
    {n m : ℕ} (hknown : ∀ id, kinds (keyOf isContainer id) ((page isContainer es).drop n) = [] →
      view id = version (keyOf isContainer id) none (pre ++ es))
    (hnew : ∀ id, versionsAt isContainer h newState.getChangeId id = version (keyOf isContainer id) none (pre ++ es))
    {start : ChangesResponse}
    (hstart : start.created = [] ∧ start.updated = [] ∧ start.destroyed = []) (more : Bool)
    (id : UInt64) (hid : kinds (keyOf isContainer id) ((page isContainer es).drop (n + m)) = []) :
    ({ ((((page isContainer es).drop n).take m).foldl report (start, false)).1 with
      newState := newState, hasMoreChanges := more }).apply (versionsAt isContainer h) view id =
      version (keyOf isContainer id) none (pre ++ es) :=
  apply_page (s := (start, false))
    (r := { ((((page isContainer es).drop n).take m).foldl report (start, false)).1 with
      newState := newState, hasMoreChanges := more })
    (fun _ hc => relevant_of_mem_page hc) (fun id => version_of_last_delete isContainer halt id) hknown hstart
    rfl rfl rfl hnew id hid

theorem addAll_accepted (hbase : FromBase c base) (hne : es ≠ [])
    (sinceState : State) : ¬ (((base.addAll es).isTruncated = true ∨ (base.addAll es).fromChangeId = 0) ∧
      sinceState ≠ .initial) := by
  have htruncated : (base.addAll es).isTruncated = false := by
    rw [Changes.isTruncated_addAll]
    exact isTruncated_of_fromBase hbase
  rw [htruncated]
  rintro ⟨hcontra | hcontra, -⟩
  · exact Bool.false_ne_true hcontra
  · exact (ids_of_mem false hbase hne).1 hcontra

/-- **An answer from entries of the log**: the client knows what its new state says. -/
theorem synced_answer {pre post : List (Stored share)} (hwhole : pre ++ es ++ post = h)
    (hasc : Ascending h) (halt : Alternating h) (hbase : FromBase c base) (hne : es ≠ []) {n : ℕ}
    (hknown : ∀ id, kinds (keyOf isContainer id) ((page isContainer es).drop n) = [] →
      view id = version (keyOf isContainer id) none (pre ++ es))
    (hnew : newState = .initial ∨ ∃ x, newState = .exact x ∧ x ≤ lastId h ∧
      ∀ id, versionsAt isContainer h x id = version (keyOf isContainer id) none (pre ++ es))
    (hr : answer request object isContainer maxChanges newState n (base.addAll es) = .ok r) :
    Synced isContainer h (r.response.apply (versionsAt isContainer h) view) r.response.newState := by
  subst hwhole
  obtain ⟨-, y, hy, hid⟩ := ids_of_mem isContainer hbase hne
  have hlast : (base.addAll es).changeId isContainer ≤ lastId (pre ++ es ++ post) :=
    hid ▸ le_lastId hasc (mem_append_left _ (mem_append_right _ hy))
  have hversions := version_changeId isContainer hasc hbase hne
  have hpage : (base.addAll es).changes.filter (relevant isContainer) = page isContainer es := by
    rw [changes_addAll, hbase.changes_eq]
    rfl
  unfold answer at hr
  rw [if_neg (addAll_accepted hbase hne request.sinceState)] at hr
  simp only [Except.ok.injEq] at hr
  rw [hpage] at hr
  subst hr
  by_cases hmore : ((page isContainer es).drop n).drop maxChanges = []
  · -- nothing is left to report
    have hnil (id : UInt64) : kinds (keyOf isContainer id) ((page isContainer es).drop (n + maxChanges)) = [] := by
      rw [← drop_drop, hmore]
      rfl
    simp only [hmore]
    rcases hnew with rfl | ⟨x, rfl, hx, hat⟩
    · have hexact : ∀ id, versionsAt isContainer (pre ++ es ++ post)
          (State.exact ((base.addAll es).changeId isContainer)).getChangeId id =
          version (keyOf isContainer id) none (pre ++ es) := hversions
      exact ⟨hlast, fun id => (apply_reported halt hknown hexact ⟨rfl, rfl, rfl⟩ false id (hnil id)).trans
        (hversions id).symm⟩
    · have hexact : ∀ id, versionsAt isContainer (pre ++ es ++ post) (State.exact x).getChangeId id =
          version (keyOf isContainer id) none (pre ++ es) := hat
      exact ⟨hx, fun id => (apply_reported halt hknown hexact ⟨rfl, rfl, rfl⟩ false id (hnil id)).trans (hat id).symm⟩
  · simp only [hmore, ne_eq]
    have hlength : n + maxChanges < (page isContainer es).length := by
      by_contra hge
      apply hmore
      rw [drop_drop, drop_eq_nil_iff]
      omega
    have hbetween := page_between isContainer hasc hbase hne
    have hnext : ∀ id, versionsAt isContainer (pre ++ es ++ post)
        (State.newIntermediate (base.addAll es).fromChangeId ((base.addAll es).changeId isContainer)
          (n + maxChanges)).getChangeId id = version (keyOf isContainer id) none (pre ++ es) := hversions
    refine ⟨hlast, ?_, fun id hunread => ?_⟩
    · rw [hbetween]
      exact hlength
    · rw [hbetween] at hunread
      exact (apply_reported halt hknown hnext ⟨rfl, rfl, rfl⟩ true id hunread).trans (hversions id).symm

theorem synced_answer_nil (hbase : FromBase c base) (hc : c ≤ lastId h) {n : ℕ}
    (hsince : request.sinceState ≠ .initial) (hview : ∀ id, view id = versionsAt isContainer h c id)
    (hnew : newState = .initial ∨ ∃ x, newState = .exact x ∧ x ≤ lastId h ∧
      ∀ id, versionsAt isContainer h x id = versionsAt isContainer h c id)
    (hr : answer request object isContainer maxChanges newState n base = .ok r) :
    Synced isContainer h (r.response.apply (versionsAt isContainer h) view) r.response.newState := by
  unfold answer at hr
  rcases hbase with rfl | rfl
  · rw [if_pos ⟨.inr rfl, hsince⟩] at hr
    cases hr
  · have hchanges : (default : Changes).changes = [] := rfl
    have hids : (default : Changes).containerChangeId = none ∧ (default : Changes).itemChangeId = none :=
      ⟨rfl, rfl⟩
    by_cases hzero : (({ (default : Changes) with fromChangeId := c, toChangeId := c }).isTruncated = true ∨
        ({ (default : Changes) with fromChangeId := c, toChangeId := c }).fromChangeId = 0) ∧
        request.sinceState ≠ .initial
    · rw [if_pos hzero] at hr
      cases hr
    rw [if_neg hzero] at hr
    obtain rfl := Except.ok.inj hr
    simp only [hchanges, Changes.changeId, hids, ite_self, filter_nil,
      drop_nil, take_nil]
    rcases hnew with rfl | ⟨x, rfl, hx, hat⟩
    · exact ⟨hc, fun id => (apply_unchanged ⟨rfl, rfl, rfl⟩ _ view id).trans (hview id)⟩
    · exact ⟨hx, fun id => (apply_unchanged ⟨rfl, rfl, rfl⟩ _ view id).trans ((hview id).trans (hat id).symm)⟩

/-- **Asking for what came after a change id** that the client knows. -/
theorem synced_since {cut : ℕ} {log : Log} (hk : Kept h cut log) (hasc : Ascending h)
    (halt : Alternating h) (hc : c ≤ lastId h) (hsince : request.sinceState ≠ .initial)
    (hview : ∀ id, view id = versionsAt isContainer h c id)
    (hnew : newState = .initial ∨ ∃ x, newState = .exact x ∧ x ≤ lastId h ∧
      ∀ id, versionsAt isContainer h x id = version (keyOf isContainer id) none h)
    {changelog : Changes} (hlog : log.changes share (.since c) = .ok changelog)
    (hr : answer request object isContainer maxChanges newState 0 changelog = .ok r) :
    Synced isContainer h (r.response.apply (versionsAt isContainer h) view) r.response.newState := by
  obtain ⟨_, heq, hcut, hread⟩ := hk.changes_since hasc c
  obtain rfl := Except.ok.inj (heq.symm.trans hlog)
  by_cases hlt : c < cut
  · -- the marker was met
    unfold answer at hr
    rw [if_pos ⟨.inl (hcut hlt), hsince⟩] at hr
    cases hr
  · obtain ⟨base, hbase, rfl⟩ := hread (by omega)
    have hsplit := filter_le_append hasc c
    set pre := h.filter fun e => e.id ≤ c
    set es := h.filter fun e => c < e.id
    have hwhole : pre ++ es ++ [] = h := by rw [append_nil, ← hsplit]
    have hat (id : UInt64) : versionsAt isContainer h c id = version (keyOf isContainer id) none pre := rfl
    by_cases hnil : es = []
    · rw [hnil] at hr hsplit
      rw [append_nil] at hsplit
      refine synced_answer_nil hbase hc hsince hview ?_ hr
      refine hnew.imp_right fun ⟨x, hx, hle, hxat⟩ => ⟨x, hx, hle, fun id => ?_⟩
      rw [hxat, hat, ← hsplit]
    · have halt' : Alternating (pre ++ es ++ []) := hwhole.symm ▸ halt
      have hknown (id : UInt64)
          (hunread : kinds (keyOf isContainer id) ((page isContainer es).drop 0) = []) :
          view id = version (keyOf isContainer id) none (pre ++ es) := by
        rw [hview]
        exact (version_of_unread isContainer halt' id hunread).symm
      refine synced_answer hwhole hasc halt hbase hnil hknown ?_ hr
      refine hnew.imp_right fun ⟨x, hx, hle, hxat⟩ => ⟨x, hx, hle, fun id => ?_⟩
      rw [hxat, ← hsplit]

theorem versionsAt_of_le (hasc : Ascending h) (hc : lastId h ≤ c) (id : UInt64) :
    versionsAt isContainer h c id = version (keyOf isContainer id) none h := by
  unfold versionsAt
  congr 1
  rw [filter_eq_self]
  intro e he
  exact decide_eq_true ((le_lastId hasc he).trans hc)

theorem getLastChangeId_eq {cut : ℕ} {log : Log} (hk : Kept h cut log) (hasc : Ascending h) :
    log.getLastChangeId = h.getLast?.map Stored.id := by
  unfold Log.getLastChangeId
  rcases eq_nil_or_concat' h with rfl | ⟨fs, x, rfl⟩
  · have hcut : cut = 0 := by
      rcases hk.cut_mem with hzero | ⟨e, he, -⟩
      · exact hzero
      · exact absurd he not_mem_nil
    rw [hk.log_eq, hcut]
    rfl
  · rw [hk.log_eq, getLast?_concat]
    by_cases hlt : cut < x.id
    · rw [filter_append, filter_cons_of_pos (by simpa using hlt), filter_nil,
        map_append, ← append_assoc, map_singleton, getLast?_concat]
      rfl
    · have hle : ∀ e ∈ fs ++ [x], e.id ≤ x.id := by
        intro e he
        have := le_lastId hasc he
        simpa [lastId] using this
      have hpos := x.pos
      have hcut : cut = x.id := by
        rcases hk.cut_mem with hzero | ⟨e, he, hid⟩
        · omega
        · have := hle e he
          omega
      have hnil : ((fs ++ [x]).filter fun e => cut < e.id) = [] := by
        rw [filter_eq_nil_iff]
        intro e he
        have := hle e he
        rw [decide_eq_true_iff]
        omega
      have hzero : cut ≠ 0 := by omega
      rw [hnil, marker, if_neg hzero, hcut]
      rfl

end

section

variable {share : Bool} {h : List (Stored share)}

def CacheIds.sortId (cache : CacheIds) (isContainer : Bool) : ℕ :=
  if isContainer then cache.container else cache.item

/-- The ids of a cache stand for the versions it was last brought up to. -/
structure Fresh {share : Bool} (h : List (Stored share)) (cache : CacheIds) : Prop where
  highest_le : cache.highest ≤ lastId h
  sortId_le (isContainer : Bool) : cache.sortId isContainer ≤ lastId h
  sortId_eq (isContainer : Bool) (id : UInt64) :
    versionsAt isContainer h (cache.sortId isContainer) id = versionsAt isContainer h cache.highest id

/-- An update takes the ids of the changes, or keeps its own for a sort that did not change. -/
def Adopts (update : CacheIds → Changes → CacheIds) : Prop :=
  ∀ cache changes, (update cache changes).highest = changes.toChangeId ∧ ∀ isContainer : Bool,
    (update cache changes).sortId isContainer = changes.changeId isContainer ∨
      ((update cache changes).sortId isContainer = cache.sortId isContainer ∧
        ((if isContainer then changes.containerChangeId else changes.itemChangeId) = none ∨
          changes.changes.filter (relevant isContainer) = []))

theorem adopts_messages : Adopts CacheIds.updateMessages := by
  intro cache changes
  refine ⟨rfl, fun isContainer => ?_⟩
  have hnone (P : Change → Bool) (hP : ∀ c : Change, c.relevant isContainer = P c)
      (hany : ¬ changes.changes.any P = true) :
      changes.changes.filter (relevant isContainer) = [] := by
    rw [filter_eq_nil_iff]
    intro c hc hrel
    exact hany (any_eq_true.mpr ⟨c, hc, (hP c).symm.trans hrel⟩)
  cases isContainer
  · by_cases hany : changes.changes.any isItemChange = true
    · exact .inl (if_pos hany)
    · exact .inr ⟨if_neg hany, .inr (hnone isItemChange (fun c => by cases c <;> rfl) hany)⟩
  · by_cases hany : changes.changes.any isContainerChange = true
    · exact .inl (if_pos hany)
    · exact .inr ⟨if_neg hany, .inr (hnone isContainerChange (fun c => by cases c <;> rfl) hany)⟩

theorem adopts_davResources : Adopts CacheIds.updateDavResources := by
  intro cache changes
  refine ⟨rfl, fun isContainer => ?_⟩
  cases isContainer
  · rcases hid : changes.itemChangeId with _ | id
    · exact .inr ⟨by simp [CacheIds.sortId, CacheIds.updateDavResources, hid], .inl (by simp)⟩
    · exact .inl (by simp [CacheIds.sortId, CacheIds.updateDavResources, Changes.changeId, hid])
  · rcases hid : changes.containerChangeId with _ | id
    · exact .inr ⟨by simp [CacheIds.sortId, CacheIds.updateDavResources, hid], .inl (by simp)⟩
    · exact .inl (by simp [CacheIds.sortId, CacheIds.updateDavResources, Changes.changeId, hid])

theorem fresh_build {cut : ℕ} {log : Log} (hk : Kept h cut log) (hasc : Ascending h) :
    Fresh h (.build log) ∧ (CacheIds.build log).highest = lastId h := by
  have hlast : log.getLastChangeId.getD 0 = lastId h := by
    rw [getLastChangeId_eq hk hasc]
    rfl
  have hsort (isContainer : Bool) : (CacheIds.build log).sortId isContainer = lastId h := by
    cases isContainer <;> exact hlast
  refine ⟨⟨hlast.le, fun b => (hsort b).le, fun b id => ?_⟩, hlast⟩
  rw [hsort]
  show _ = versionsAt b h (log.getLastChangeId.getD 0) id
  rw [hlast]

theorem version_of_page_nil (halt : Alternating h) {c : ℕ} (hsplit : h = (h.filter fun e => e.id ≤ c) ++ h.filter fun e => c < e.id)
    (isContainer : Bool) (hpage : page isContainer (h.filter fun e => c < e.id) = []) (id : UInt64) :
    versionsAt isContainer h c id = version (keyOf isContainer id) none h := by
  have hwhole : (h.filter fun e => e.id ≤ c) ++ (h.filter fun e => c < e.id) ++ [] = h := by
    rw [append_nil, ← hsplit]
  have halt' : Alternating ((h.filter fun e => e.id ≤ c) ++ (h.filter fun e => c < e.id) ++ []) :=
    hwhole.symm ▸ halt
  have hversion := version_of_unread isContainer halt' id (by rw [hpage]; rfl)
  rw [← hsplit] at hversion
  exact hversion.symm

theorem toChangeId_since {c : ℕ} (hsplit : h = (h.filter fun e => e.id ≤ c) ++ h.filter fun e => c < e.id)
    (hne : (h.filter fun e => c < e.id) ≠ []) (base : Changes) :
    (base.addAll (h.filter fun e => c < e.id)).toChangeId = lastId h := by
  rcases eq_nil_or_concat' (h.filter fun e => c < e.id) with hnil | ⟨fs, x, hx⟩
  · exact absurd hnil hne
  · have hlast : lastId h = x.id := by
      rw [hsplit, hx]
      simp [lastId]
    rw [hx, toChangeId_addAll_concat, hlast]

theorem Fresh.update (hshare : share = false) (hasc : Ascending h) (halt : Alternating h) {update : CacheIds → Changes → CacheIds}
    (hupdate : Adopts update) {cache : CacheIds} (hfresh : Fresh h cache) {base : Changes}
    (hbase : FromBase cache.highest base) (hne : (h.filter fun e => cache.highest < e.id) ≠ []) :
    Fresh h (update cache (base.addAll (h.filter fun e => cache.highest < e.id))) ∧ ∀ isContainer id,
      versionsAt isContainer h (update cache (base.addAll (h.filter fun e => cache.highest < e.id))).highest id =
        version (keyOf isContainer id) none h := by
  have hsplit := filter_le_append hasc cache.highest
  have hto := toChangeId_since hsplit hne base
  have hunread := version_of_page_nil halt hsplit
  set pre := h.filter fun e => e.id ≤ cache.highest
  set es := h.filter fun e => cache.highest < e.id
  have hwhole : pre ++ es ++ [] = h := by rw [append_nil, ← hsplit]
  have hasc' : Ascending (pre ++ es ++ []) := hwhole.symm ▸ hasc
  obtain ⟨hhighest, hsort⟩ := hupdate cache (base.addAll es)
  have hend (isContainer : Bool) (id : UInt64) :
      versionsAt isContainer h (update cache (base.addAll es)).highest id =
        version (keyOf isContainer id) none h :=
    versionsAt_of_le hasc (by rw [hhighest, hto]) id
  refine ⟨⟨by rw [hhighest, hto], fun b => ?_, fun b id => ?_⟩, hend⟩
  · rcases hsort b with heq | ⟨heq, -⟩
    · obtain ⟨-, y, hy, hid⟩ := ids_of_mem b hbase hne
      rw [heq, ← hid]
      exact le_lastId hasc (mem_of_mem_filter hy)
    · rw [heq]
      exact hfresh.sortId_le b
  · rw [hend]
    rcases hsort b with heq | ⟨heq, hkept⟩
    · have hversion := version_changeId b hasc' hbase hne id
      rw [heq]
      rw [hwhole, ← hsplit] at hversion
      exact hversion
    · rw [heq, hfresh.sortId_eq]
      rcases hkept with hnone | hpage
      · have hsilent : ∀ e ∈ es, Silent b e := by
          rcases sortId_addAll b (hbase.sortId b) es with ⟨-, hno⟩ | ⟨fs, e, gs, -, -, hsome, -⟩
          · exact fun e he => silent_of_hasChanges hshare (hno e he)
          · rw [hnone] at hsome
            cases hsome
        conv_rhs => rw [hsplit, version_append]
        exact (version_silent hsilent id _).symm
      · refine hunread b ?_ id
        rwa [changes_addAll, hbase.changes_eq] at hpage

/-- **A cache that was brought up to date** stands for the end of the history. -/
theorem fresh_refresh (hshare : share = false) {cut : ℕ} {log : Log} (hk : Kept h cut log) (hasc : Ascending h)
    (halt : Alternating h) {update : CacheIds → Changes → CacheIds} (hupdate : Adopts update)
    {cache : Option CacheIds} (hcache : ∀ c, cache = some c → Fresh h c) {cache' : CacheIds}
    (hr : CacheIds.refresh log update cache = .ok cache') :
    Fresh h cache' ∧ ∀ isContainer id,
      versionsAt isContainer h cache'.highest id = version (keyOf isContainer id) none h := by
  have hbuilt : Fresh h (.build log) ∧ ∀ isContainer id,
      versionsAt isContainer h (CacheIds.build log).highest id = version (keyOf isContainer id) none h := by
    obtain ⟨hfresh, hhighest⟩ := fresh_build hk hasc
    exact ⟨hfresh, fun b id => versionsAt_of_le hasc hhighest.ge id⟩
  subst hshare
  rcases cache with _ | cache
  · obtain rfl := Except.ok.inj hr
    exact hbuilt
  have hfresh := hcache cache rfl
  obtain ⟨r, hlog, hcut, hread⟩ := hk.changes_since hasc cache.highest
  have hok : CacheIds.refresh log update (some cache) = .ok (if r.isTruncated then .build log
      else if r.changes.isEmpty then cache else update cache r) := by
    unfold CacheIds.refresh
    simp only [hlog]
    rfl
  obtain rfl := Except.ok.inj (hok.symm.trans hr)
  by_cases hlt : cache.highest < cut
  · rw [if_pos (hcut hlt)]
    exact hbuilt
  obtain ⟨base, hbase, rfl⟩ := hread (Nat.not_lt.mp hlt)
  have hsplit := filter_le_append hasc cache.highest
  rw [Changes.isTruncated_addAll, isTruncated_of_fromBase hbase, if_neg Bool.false_ne_true, changes_addAll,
    hbase.changes_eq]
  by_cases hempty : read [] (h.filter fun e => cache.highest < e.id) = []
  · rw [hempty]
    exact ⟨hfresh, fun b id => version_of_page_nil halt hsplit b (by rw [page, hempty]; rfl) id⟩
  · rw [if_neg (by rwa [List.isEmpty_iff])]
    refine hfresh.update rfl hasc halt hupdate hbase fun hnil => hempty ?_
    rw [hnil]
    rfl

end

end MailServer.Jmap
