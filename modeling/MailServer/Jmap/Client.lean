import MailServer.Lib.Except
import MailServer.Jmap.Sync

/-!
# Runs of a client

The log of a collection grows and is cut, its cache comes and goes, and a client asks for changes in
between.

* `System`, `step`: the log, the cache and the client.
* `Covered`: the requests that are answered from a complete part of the log.
* `run_synced`: the client knows the versions of its state, and pages come to an end.
-/

namespace MailServer.Jmap

open MailServer.Lib MailServer.Types MailServer.Store.Query MailServer.Common List

/-- What a client asks for, and how many changes the server sends at most. -/
structure Config where
  accountId : UInt32
  object : MethodObject
  collection : SyncCollection
  isContainer : Bool
  found : object.collection = some (collection, isContainer)
  changesMaxResults : ℕ
  pos : 0 < changesMaxResults

abbrev Config.share (cfg : Config) : Bool := decide (cfg.collection = .shareNotification)

structure System (cfg : Config) where
  history : List (Stored cfg.share)
  log : Log
  cache : Option CacheIds
  state : State
  view : UInt64 → Option ℕ

open System

inductive Step (cfg : Config) where
  /-- a batch is logged -/
  | append (e : Stored cfg.share)
  | deleteChanges (maxEntries expireBefore : Option ℕ)
  /-- the cache is dropped -/
  | evict
  /-- the cache is read for somebody else -/
  | fetch
  /-- the client fetches all objects, with the state that the server names -/
  | get
  | request (maxChanges : Option ℕ)

section

variable {cfg : Config}

namespace System

/-- Nothing was logged yet. -/
def init : System cfg := ⟨[], [], none, .initial, fun _ => none⟩

def ask (s : System cfg) (maxChanges : Option ℕ) :
    Except Failure (IntermediateChangesResponse × Option CacheIds) :=
  changes cfg.changesMaxResults s.log s.cache ⟨cfg.accountId, s.state, maxChanges⟩ cfg.object

/-- The state of the last change: that of the cache, or of the log. -/
def getState (s : System cfg) : Except Failure (State × Option CacheIds) :=
  (lastState s.log cfg.collection cfg.isContainer s.cache).map fun r =>
    (r.1.getD (.ofLastChangeId s.log.getLastChangeId), r.2)

def step (s : System cfg) : Step cfg → System cfg
  | .append e => { s with history := s.history ++ [e], log := s.log ++ [e.entry] }
  | .deleteChanges maxEntries expireBefore =>
    { s with log := Common.deleteChanges cfg.collection maxEntries expireBefore s.log }
  | .evict => { s with cache := none }
  | .fetch =>
    match s.getState with
    | .ok (_, cache) => { s with cache }
    | .error _ => s
  | .get =>
    match s.getState with
    | .ok (state, cache) =>
      { s with cache, state, view := fun id => version (keyOf cfg.isContainer id) none s.history }
    | .error _ => s
  | .request maxChanges =>
    match s.ask maxChanges with
    | .ok (r, cache) =>
      { s with
        cache
        state := r.response.newState
        view := r.response.apply (versionsAt cfg.isContainer s.history) s.view }
    | .error _ => s

def run (s : System cfg) (steps : List (Step cfg)) : System cfg := steps.foldl step s

end System

/-- What can be logged next: a later change id, and events that fit what is there. -/
def Enabled (s : System cfg) : Step cfg → Prop
  | .append e => (∀ x ∈ s.history, x.id < e.id) ∧ Alternating (s.history ++ [e])
  | _ => True

/-- Changes of a range of the sort that is asked for. -/
def total (isContainer : Bool) (c : Changes) : ℕ :=
  if isContainer then c.totalContainerChanges else c.totalItemChanges

/-- Share notifications do not expire; nobody starts from a log that was cut; and the rest of a range
that was cut while it was being sent is more than was sent of it. -/
def Covered (s : System cfg) : Step cfg → Prop
  | .deleteChanges _ expireBefore => cfg.collection = .shareNotification → expireBefore = none
  | .request _ =>
    match s.state with
    | .initial => ∀ e ∈ s.log, e.2 ≠ []
    | .exact _ => True
    | .intermediate i => ∀ r, s.log.changes cfg.share (.rangeInclusive i.fromId i.toId) = .ok r →
      r.isTruncated = true → i.itemsSent < total cfg.isContainer r
  | _ => True

/-- Every step of a run meets a condition. -/
def Along (P : System cfg → Step cfg → Prop) : System cfg → List (Step cfg) → Prop
  | _, [] => True
  | s, step :: steps => P s step ∧ Along P (s.step step) steps

/-! ## What holds along a run -/

/-- The log, the cache and the client agree with the history. -/
structure Good (s : System cfg) : Prop where
  ascending : Ascending s.history
  alternating : Alternating s.history
  kept : ∃ cut, Kept s.history cut s.log
  fresh : ∀ c, s.cache = some c → Fresh s.history c
  synced : Synced cfg.isContainer s.history s.view s.state

variable {share isContainer : Bool} {h : List (Stored share)} {e : Stored share} {cut : ℕ}
  {log : Log} {s : System cfg} {collection : SyncCollection} {cache : Option CacheIds}
  {changelog : Changes} {i : JMAPIntermediateState} {maxChanges : Option ℕ}
  {r : IntermediateChangesResponse} {steps : List (Step cfg)}

theorem lastId_concat (h : List (Stored share)) (e : Stored share) : lastId (h ++ [e]) = e.id := by
  simp [lastId]

section

variable (hgt : ∀ x ∈ h, x.id < e.id)
include hgt

theorem filter_concat_of_le {c : ℕ} (hc : c ≤ lastId h) :
    ((h ++ [e]).filter fun x => x.id ≤ c) = h.filter fun x => x.id ≤ c := by
  have hlt : c < e.id := by
    rcases eq_nil_or_concat' h with rfl | ⟨fs, x, rfl⟩
    · have hzero : c ≤ 0 := hc
      have := e.pos
      omega
    · have := hgt x (by simp)
      rw [lastId_concat] at hc
      omega
  rw [filter_append, filter_cons_of_neg (by simpa using hlt), filter_nil,
    append_nil]

theorem versionsAt_concat {c : ℕ} (hc : c ≤ lastId h)
    (isContainer : Bool) (id : UInt64) :
    versionsAt isContainer (h ++ [e]) c id = versionsAt isContainer h c id := by
  unfold versionsAt
  rw [filter_concat_of_le hgt hc]

theorem between_concat {a c : ℕ} (hc : c ≤ lastId h) :
    between (h ++ [e]) a c = between h a c := by
  have hfilter (l : List (Stored share)) : between l a c =
      (l.filter fun x => x.id ≤ c).filter fun x => a ≤ x.id := by
    rw [filter_filter]
    apply filter_congr
    intro x _
    simp
  rw [hfilter, hfilter, filter_concat_of_le hgt hc]

theorem lastId_le_concat : lastId h ≤ lastId (h ++ [e]) := by
  rw [lastId_concat]
  rcases eq_nil_or_concat' h with rfl | ⟨fs, x, rfl⟩
  · exact Nat.zero_le _
  · rw [lastId_concat]
    exact (hgt x (by simp)).le

/-- **Logging** changes nothing that a client knows. -/
theorem synced_concat {view : UInt64 → Option ℕ} {s : State}
    (hs : Synced isContainer h view s) : Synced isContainer (h ++ [e]) view s := by
  have hlast := lastId_le_concat hgt
  cases s with
  | initial => exact hs
  | exact c =>
    obtain ⟨hc, hview⟩ := hs
    exact ⟨hc.trans hlast, fun id => (hview id).trans (versionsAt_concat hgt hc _ id).symm⟩
  | intermediate i =>
    obtain ⟨hc, hsent, hview⟩ := hs
    have hbetween := between_concat hgt (a := i.fromId) hc
    refine ⟨hc.trans hlast, ?_, fun id hunread => ?_⟩
    · rw [hbetween]
      exact hsent
    · rw [hbetween] at hunread
      rw [versionsAt_concat hgt hc]
      exact hview id hunread

theorem kept_concat (hk : Kept h cut log) :
    Kept (h ++ [e]) cut (log ++ [e.entry]) := by
  have hlt : cut < e.id := by
    rcases hk.cut_mem with rfl | ⟨x, hx, rfl⟩
    · exact e.pos
    · exact hgt x hx
  refine ⟨?_, hk.cut_mem.imp_right fun ⟨x, hx, hid⟩ => ⟨x, mem_append_left _ hx, hid⟩⟩
  rw [hk.log_eq, filter_append, filter_cons_of_pos (by simpa using hlt), map_append, append_assoc]
  rfl

theorem fresh_concat {cache : CacheIds}
    (hc : Fresh h cache) : Fresh (h ++ [e]) cache := by
  have hlast := lastId_le_concat hgt
  refine ⟨hc.highest_le.trans hlast, fun b => (hc.sortId_le b).trans hlast, fun b id => ?_⟩
  rw [versionsAt_concat hgt (hc.sortId_le b), versionsAt_concat hgt hc.highest_le]
  exact hc.sortId_eq b id

end

theorem Good.append (hs : Good s) {e : Stored cfg.share} (he : Enabled s (.append e)) :
    Good (s.step (.append e)) := by
  obtain ⟨hgt, halt⟩ := he
  obtain ⟨cut, hk⟩ := hs.kept
  refine ⟨?_, halt, ⟨cut, kept_concat hgt hk⟩, fun c hc => fresh_concat hgt (hs.fresh c hc),
    synced_concat hgt hs.synced⟩
  refine pairwise_append.mpr ⟨hs.ascending, pairwise_singleton _ _, ?_⟩
  intro x hx y hy
  rw [mem_singleton.mp hy]
  exact hgt x hx

theorem kept_deleteChanges (hk : Kept h cut log) (hasc : Ascending h) (maxEntries : Option ℕ)
    {expireBefore : Option ℕ} (hc : collection = .shareNotification → expireBefore = none) :
    ∃ cut', Kept h cut' (Common.deleteChanges collection maxEntries expireBefore log) := by
  have htruncated : ∃ cut', Kept h cut' (truncateChanges collection log maxEntries) := by
    rcases maxEntries with _ | m
    · exact ⟨cut, hk⟩
    · unfold truncateChanges
      split_ifs
      · obtain ⟨cut', -, hk'⟩ := Kept.truncate hk hasc m
        exact ⟨cut', hk'⟩
      · exact ⟨cut, hk⟩
  rcases expireBefore with _ | changeId
  · exact htruncated
  · have hne : ¬ collection = .shareNotification := fun heq => by cases hc heq
    show ∃ cut', Kept h cut' (if collection = .shareNotification then _ else _)
    rw [if_neg hne]
    exact htruncated

theorem Good.deleteChanges (hs : Good s) {maxEntries expireBefore : Option ℕ}
    (hc : Covered s (.deleteChanges maxEntries expireBefore)) :
    Good (s.step (.deleteChanges maxEntries expireBefore)) := by
  obtain ⟨cut, hk⟩ := hs.kept
  exact ⟨hs.ascending, hs.alternating, kept_deleteChanges hk hs.ascending maxEntries hc, hs.fresh, hs.synced⟩

theorem lastState_spec (hk : Kept h cut log) (hasc : Ascending h) (halt : Alternating h)
    (hshare : share = decide (collection = .shareNotification)) {cache' : Option CacheIds}
    (hcache : ∀ c, cache = some c → Fresh h c) {state : Option State}
    (hr : lastState log collection isContainer cache = .ok (state, cache')) :
    (∀ c, cache' = some c → Fresh h c) ∧
    (state = none ∨ ∃ x, state = some (.exact x) ∧ x ≤ lastId h ∧
      ∀ id, versionsAt isContainer h x id = version (keyOf isContainer id) none h) := by
  have hread (hf : share = false) {update : CacheIds → Changes → CacheIds} (hupdate : Adopts update)
      {c : CacheIds} (hc : CacheIds.refresh log update cache = .ok c) :
      (∀ c', some c = some c' → Fresh h c') ∧
      (some (c.getState isContainer) = none ∨ ∃ x, some (c.getState isContainer) = some (.exact x) ∧
        x ≤ lastId h ∧ ∀ id, versionsAt isContainer h x id = version (keyOf isContainer id) none h) := by
    obtain ⟨hfresh, hend⟩ := fresh_refresh hf hk hasc halt hupdate hcache hc
    refine ⟨fun c' heq => Option.some.inj heq ▸ hfresh, .inr ⟨c.sortId isContainer, rfl,
      hfresh.sortId_le isContainer, fun id => ?_⟩⟩
    rw [hfresh.sortId_eq, hend]
  cases collection
  case calendar | addressBook =>
    unfold lastState CacheIds.fetchDavResources at hr
    rcases hc : CacheIds.refresh log CacheIds.updateDavResources cache with e | c
    · rw [hc] at hr
      cases hr
    · rw [hc] at hr
      obtain ⟨rfl, rfl⟩ := Prod.mk.inj (Except.ok.inj hr)
      exact hread hshare adopts_davResources hc
  case email =>
    unfold lastState CacheIds.fetchMessages at hr
    rcases hc : CacheIds.refresh log CacheIds.updateMessages cache with e | c
    · rw [hc] at hr
      cases hr
    · rw [hc] at hr
      obtain ⟨rfl, rfl⟩ := Prod.mk.inj (Except.ok.inj hr)
      exact hread hshare adopts_messages hc
  all_goals
    obtain ⟨rfl, rfl⟩ := Prod.mk.inj (Except.ok.inj hr)
    exact ⟨hcache, .inl rfl⟩

theorem Good.getState (hs : Good s) {state : State} (hr : s.getState = .ok (state, cache)) :
    (∀ c, cache = some c → Fresh s.history c) ∧
    Synced cfg.isContainer s.history (fun id => version (keyOf cfg.isContainer id) none s.history) state := by
  obtain ⟨cut, hk⟩ := hs.kept
  unfold System.getState at hr
  rcases hl : lastState s.log cfg.collection cfg.isContainer s.cache with e | ⟨last, cache'⟩
  · rw [hl] at hr
    cases hr
  · rw [hl] at hr
    obtain ⟨rfl, rfl⟩ := Prod.mk.inj (Except.ok.inj hr)
    obtain ⟨hfresh, hstate⟩ := lastState_spec hk hs.ascending hs.alternating rfl hs.fresh hl
    refine ⟨hfresh, ?_⟩
    rcases hstate with rfl | ⟨x, rfl, hx, hat⟩
    · rw [getLastChangeId_eq hk hs.ascending]
      rcases hlast : s.history.getLast? with _ | e
      · rw [getLast?_eq_none_iff.mp hlast]
        exact fun id => rfl
      · have hid : lastId s.history = e.id := by
          unfold lastId
          rw [hlast]
          rfl
        exact ⟨hid.ge, fun id => (versionsAt_of_le hs.ascending hid.le id).symm⟩
    · exact ⟨hx, fun id => (hat id).symm⟩

section

variable {share : Bool} {isContainer : Bool} {h : List (Stored share)} {cut : ℕ} {log : Log}
  {view : UInt64 → Option ℕ} {request : ChangesRequest} {object : MethodObject} {maxChanges : ℕ}
  {r : IntermediateChangesResponse}

variable {changelog : Changes}

/-- **From the start**, on a log that was never cut. -/
theorem synced_all (hk : Kept h 0 log) (hasc : Ascending h) (halt : Alternating h) (hne : h ≠ [])
    (hview : ∀ id, view id = none) (hlog : log.changes share .all = .ok changelog)
    (hr : answer request object isContainer maxChanges .initial 0 changelog = .ok r) :
    Synced isContainer h (r.response.apply (versionsAt isContainer h) view) r.response.newState := by
  have hall : between h 0 u64Max = h := by
    rw [between, filter_eq_self]
    intro e _
    exact decide_eq_true ⟨Nat.zero_le _, e.le⟩
  have hread := hk.changes_inclusive (q := .all) rfl (.inl rfl)
  obtain rfl := Except.ok.inj (hread.symm.trans hlog)
  have hwhole : [] ++ h ++ [] = h := by simp
  have halt' : Alternating ([] ++ h ++ []) := hwhole.symm ▸ halt
  have hbounds : between h (LogQuery.bounds .all).2.1 (LogQuery.bounds .all).2.2 = h := hall
  rw [hbounds] at hr
  have hknown (id : UInt64) (hunread : kinds (keyOf isContainer id) ((page isContainer h).drop 0) = []) :
      view id = version (keyOf isContainer id) none ([] ++ h) := by
    rw [version_of_unread isContainer halt' id hunread, hview]
    rfl
  exact synced_answer hwhole hasc halt (c := 0) (.inl rfl) hne hknown (.inl rfl) hr

theorem length_page_eq (es : List (Stored share)) :
    total isContainer ((default : Changes).addAll es) = (page isContainer es).length := by
  have hchanges : ((default : Changes).addAll es).changes = read [] es := changes_addAll _ _
  unfold total Changes.totalContainerChanges Changes.totalItemChanges page
  rw [hchanges]
  cases isContainer
  · exact congrArg List.length (filter_congr fun c _ => by cases c <;> rfl)
  · exact congrArg List.length (filter_congr fun c _ => by cases c <;> rfl)

theorem split_between (hasc : Ascending h) {a b : ℕ} (hne : between h a b ≠ []) :
    (h.filter fun e => e.id ≤ b) = (h.filter fun e => e.id < a) ++ between h a b ∧
      (h.filter fun e => e.id < a) ++ between h a b ++ (h.filter fun e => b < e.id) = h := by
  obtain ⟨x, hx⟩ := exists_mem_of_ne_nil _ hne
  obtain ⟨-, hfrom, hto⟩ := mem_between.mp hx
  have hup : (h.filter fun e => e.id ≤ b) = (h.filter fun e => e.id < a) ++ between h a b := by
    have hasc' : Ascending (h.filter fun e => e.id ≤ b) := List.Pairwise.filter _ hasc
    conv_lhs => rw [filter_le_append hasc' (a - 1), filter_filter, filter_filter]
    congr 1
    · apply filter_congr
      intro e _
      have := e.pos
      rw [Bool.eq_iff_iff]
      simp only [Bool.and_eq_true, decide_eq_true_eq]
      omega
    · apply filter_congr
      intro e _
      have := e.pos
      rw [Bool.eq_iff_iff]
      simp only [Bool.and_eq_true, decide_eq_true_eq]
      omega
  exact ⟨hup, by rw [← hup, ← filter_le_append hasc b]⟩

/-- **The rest of a range** that is still complete. -/
theorem synced_rest (hk : Kept h cut log) (hasc : Ascending h) (halt : Alternating h)
    {i : JMAPIntermediateState} (hs : Synced isContainer h view (.intermediate i))
    (hcut : cut = 0 ∨ cut < i.fromId)
    (hlog : log.changes share (.rangeInclusive i.fromId i.toId) = .ok changelog)
    (hr : answer request object isContainer maxChanges .initial i.itemsSent changelog = .ok r) :
    Synced isContainer h (r.response.apply (versionsAt isContainer h) view) r.response.newState := by
  obtain ⟨-, hsent, hview⟩ := hs
  have hread := hk.changes_inclusive (q := .rangeInclusive i.fromId i.toId) rfl hcut
  obtain rfl := Except.ok.inj (hread.symm.trans hlog)
  set es := between h i.fromId i.toId
  have hne : es ≠ [] := by
    intro hnil
    rw [hnil] at hsent
    exact Nat.not_lt_zero _ hsent
  obtain ⟨hup, hwhole⟩ := split_between hasc hne
  have hat (id : UInt64) : versionsAt isContainer h i.toId id =
      version (keyOf isContainer id) none ((h.filter fun e => e.id < i.fromId) ++ es) := by
    rw [← hup]
    rfl
  exact synced_answer hwhole hasc halt (c := 0) (.inl rfl) hne
    (fun id hunread => (hview id hunread).trans (hat id)) (.inl rfl) hr

end

theorem lookup_eq_ok {q : LogQuery} (h : lookup log collection q = .ok changelog) :
    log.changes (decide (collection = .shareNotification)) q = .ok changelog := by
  unfold lookup at h
  rcases hc : log.changes (decide (collection = .shareNotification)) q with e | c
  · rw [hc] at h
    cases h
  · rw [hc] at h
    exact congrArg Except.ok (Except.ok.inj h)

theorem kept_of_no_marker (hk : Kept h cut log) (hno : ∀ e ∈ log, e.2 ≠ []) : cut = 0 := by
  by_contra hzero
  refine hno (cut, []) ?_ rfl
  rw [hk.log_eq, marker, if_neg hzero]
  simp

/-- The limit of an answer. -/
def Config.limit (cfg : Config) (maxChanges : Option ℕ) : ℕ :=
  min ((maxChanges.filter (· ≠ 0)).getD u64Max) cfg.changesMaxResults

theorem Config.limit_pos (cfg : Config) (maxChanges : Option ℕ) : 0 < cfg.limit maxChanges := by
  refine Nat.lt_min.mpr ⟨?_, cfg.pos⟩
  rcases maxChanges with _ | _ | n
  · decide
  · decide
  · exact Nat.succ_pos n

/-- **The rest of a range** is answered from the range, when it is answered at all. -/
theorem Good.ask_intermediate (hs : Good s) (hstate : s.state = .intermediate i)
    (hc : Covered s (.request maxChanges)) (hr : s.ask maxChanges = .ok (r, cache)) :
    ∃ cut, Kept s.history cut s.log ∧ (cut = 0 ∨ cut < i.fromId) ∧ ∃ changelog,
      s.log.changes cfg.share (.rangeInclusive i.fromId i.toId) = .ok changelog ∧
      answer ⟨cfg.accountId, .intermediate i, maxChanges⟩ cfg.object cfg.isContainer (cfg.limit maxChanges)
        .initial i.itemsSent changelog = .ok r ∧
      cache = s.cache := by
  obtain ⟨cut, hk⟩ := hs.kept
  have hsynced := hs.synced
  unfold ask changes at hr
  simp only [cfg.found] at hr
  rw [hstate] at hsynced
  simp only [Covered, hstate] at hr hc
  obtain ⟨changelog, hlog, hr⟩ := bind_eq_ok hr
  have hlog := lookup_eq_ok hlog
  have hcut := hc changelog hlog
  rw [show (if cfg.isContainer then changelog.totalContainerChanges else changelog.totalItemChanges) =
    total cfg.isContainer changelog from rfl] at hr
  by_cases habove : cut = 0 ∨ cut < i.fromId
  · have hread := hk.changes_inclusive (q := .rangeInclusive i.fromId i.toId) rfl habove
    have htotal : ¬ total cfg.isContainer changelog ≤ i.itemsSent := by
      obtain rfl := Except.ok.inj (hread.symm.trans hlog)
      rw [length_page_eq]
      exact Nat.not_le_of_lt hsynced.2.1
    rw [if_neg htotal] at hr
    obtain ⟨r', hanswer, hr⟩ := bind_eq_ok hr
    obtain ⟨rfl, rfl⟩ := Prod.mk.inj (Except.ok.inj hr)
    exact ⟨cut, hk, habove, changelog, hlog, hanswer, rfl⟩
  · -- the range was cut: its rest is refused
    have hfrom : i.fromId ≤ cut ∧ cut ≠ 0 := by omega
    by_cases hto : cut ≤ i.toId
    · obtain ⟨_, heq, htruncated⟩ := hk.changes_of_marker (q := .rangeInclusive i.fromId i.toId) hfrom.2
        hfrom.1 hto (.inl rfl)
      obtain rfl := Except.ok.inj (heq.symm.trans hlog)
      have htotal := hcut htruncated
      rw [if_neg (by omega)] at hr
      obtain ⟨r', hanswer, -⟩ := bind_eq_ok hr
      unfold answer at hanswer
      rw [if_pos ⟨.inl htruncated, by exact State.noConfusion⟩] at hanswer
      cases hanswer
    · have hread := hk.changes_below (q := .rangeInclusive i.fromId i.toId) (by show i.toId < cut; omega)
      obtain rfl := Except.ok.inj (hread.symm.trans hlog)
      have htotal : total cfg.isContainer default ≤ i.itemsSent := by
        have hzero : total cfg.isContainer (default : Changes) = 0 :=
          length_page_eq ([] : List (Stored true))
        rw [hzero]
        exact Nat.zero_le _
      rw [if_pos htotal] at hr
      obtain ⟨changelog, hlog', hr⟩ := bind_eq_ok hr
      obtain ⟨_, heq, htruncated, -⟩ := hk.changes_since hs.ascending i.toId
      obtain rfl := Except.ok.inj (heq.symm.trans (lookup_eq_ok hlog'))
      obtain ⟨r', hanswer, -⟩ := bind_eq_ok hr
      unfold answer at hanswer
      rw [if_pos ⟨.inl (htruncated (by omega)), by exact State.noConfusion⟩] at hanswer
      cases hanswer

/-- **A request** keeps a client in step with the log. -/
theorem Good.ask (hs : Good s) (hc : Covered s (.request maxChanges))
    (hr : s.ask maxChanges = .ok (r, cache)) :
    (∀ c, cache = some c → Fresh s.history c) ∧
    Synced cfg.isContainer s.history (r.response.apply (versionsAt cfg.isContainer s.history) s.view)
      r.response.newState := by
  obtain ⟨cut, hk⟩ := hs.kept
  have hsynced := hs.synced
  have hr' := hr
  unfold System.ask changes at hr
  simp only [cfg.found] at hr
  rcases hstate : s.state with _ | c | i
  · -- from the start
    rw [hstate] at hsynced
    simp only [Covered, hstate] at hr hc
    obtain rfl := kept_of_no_marker hk hc
    obtain ⟨changelog, hlog, hr⟩ := bind_eq_ok hr
    have hlog := lookup_eq_ok hlog
    by_cases hnil : s.history = []
    · have hread := hk.changes_inclusive (q := .all) rfl (.inl rfl)
      have hempty : between s.history (LogQuery.bounds .all).2.1 (LogQuery.bounds .all).2.2 = [] := by
        rw [hnil]
        rfl
      rw [hempty] at hread
      obtain rfl := Except.ok.inj (hread.symm.trans hlog)
      obtain ⟨rfl, rfl⟩ := Prod.mk.inj (Except.ok.inj hr)
      exact ⟨hs.fresh, fun id => (apply_unchanged ⟨rfl, rfl, rfl⟩ _ _ id).trans (hsynced id)⟩
    · by_cases hempty : changelog.changes.isEmpty = true ∧ changelog.fromChangeId = 0
      · rw [if_pos hempty] at hr
        obtain ⟨rfl, rfl⟩ := Prod.mk.inj (Except.ok.inj hr)
        exact ⟨hs.fresh, fun id => (apply_unchanged ⟨rfl, rfl, rfl⟩ _ _ id).trans (hsynced id)⟩
      · rw [if_neg hempty] at hr
        obtain ⟨r', hanswer, hr⟩ := bind_eq_ok hr
        obtain ⟨rfl, rfl⟩ := Prod.mk.inj (Except.ok.inj hr)
        exact ⟨hs.fresh, synced_all hk hs.ascending hs.alternating hnil hsynced hlog hanswer⟩
  · -- after a change id
    rw [hstate] at hsynced
    simp only [hstate] at hr
    obtain ⟨hle, hview⟩ := hsynced
    obtain ⟨⟨state, cache'⟩, hlast, hr⟩ := bind_eq_ok hr
    obtain ⟨hfresh, hnew⟩ := lastState_spec hk hs.ascending hs.alternating rfl hs.fresh hlast
    split_ifs at hr with hsame
    · obtain ⟨rfl, rfl⟩ := Prod.mk.inj (Except.ok.inj hr)
      exact ⟨hfresh, hle, fun id => (apply_unchanged ⟨rfl, rfl, rfl⟩ _ _ id).trans (hview id)⟩
    · obtain ⟨changelog, hlog, hr⟩ := bind_eq_ok hr
      obtain ⟨r', hanswer, hr⟩ := bind_eq_ok hr
      obtain ⟨rfl, rfl⟩ := Prod.mk.inj (Except.ok.inj hr)
      refine ⟨hfresh, synced_since hk hs.ascending hs.alternating hle (by exact State.noConfusion) hview
        ?_ (lookup_eq_ok hlog) hanswer⟩
      rcases hnew with rfl | ⟨x, rfl, hx, hat⟩
      · exact .inl rfl
      · exact .inr ⟨x, rfl, hx, hat⟩
  · -- the rest of a range
    obtain ⟨cut', hk', habove, changelog, hlog, hanswer, rfl⟩ := hs.ask_intermediate hstate hc hr'
    rw [hstate] at hsynced
    exact ⟨hs.fresh, synced_rest hk' hs.ascending hs.alternating hsynced habove hlog hanswer⟩

theorem Good.step (hs : Good s) {step : Step cfg} (he : Enabled s step)
    (hc : Covered s step) : Good (s.step step) := by
  cases step with
  | append e => exact hs.append he
  | deleteChanges maxEntries expireBefore => exact hs.deleteChanges hc
  | evict => exact ⟨hs.ascending, hs.alternating, hs.kept, fun c hcontra => (by cases hcontra), hs.synced⟩
  | fetch =>
    show Good (match s.getState with
      | .ok (_, cache) => { s with cache }
      | .error _ => s)
    rcases hg : s.getState with e | ⟨state, cache⟩
    · exact hs
    · exact ⟨hs.ascending, hs.alternating, hs.kept, (hs.getState hg).1, hs.synced⟩
  | get =>
    show Good (match s.getState with
      | .ok (state, cache) =>
        { s with cache, state, view := fun id => version (keyOf cfg.isContainer id) none s.history }
      | .error _ => s)
    rcases hg : s.getState with e | ⟨state, cache⟩
    · exact hs
    · obtain ⟨hfresh, hsynced⟩ := hs.getState hg
      exact ⟨hs.ascending, hs.alternating, hs.kept, hfresh, hsynced⟩
  | request maxChanges =>
    show Good (match s.ask maxChanges with
      | .ok (r, cache) =>
        { s with
          cache
          state := r.response.newState
          view := r.response.apply (versionsAt cfg.isContainer s.history) s.view }
      | .error _ => s)
    rcases hg : s.ask maxChanges with e | ⟨r, cache⟩
    · exact hs
    · obtain ⟨hfresh, hsynced⟩ := hs.ask hc hg
      exact ⟨hs.ascending, hs.alternating, hs.kept, hfresh, hsynced⟩

theorem good_init : Good (init : System cfg) := by
  refine ⟨List.Pairwise.nil, fun k => trivial, ⟨0, rfl, .inl rfl⟩, fun c hc => (by cases hc), fun id => rfl⟩

theorem Good.run (hs : Good s) (he : Along Enabled s steps)
    (hc : Along Covered s steps) : Good (s.run steps) := by
  induction steps generalizing s with
  | nil => exact hs
  | cons step steps ih => exact ih (hs.step he.1 hc.1) he.2 hc.2

/-! ## The end of the pages -/

theorem answer_more {request : ChangesRequest} {object : MethodObject} {maxChanges n : ℕ}
    {newState : State}
    (hr : answer request object isContainer maxChanges newState n changelog = .ok r) :
    (r.response.hasMoreChanges = true ↔
      n + maxChanges < (changelog.changes.filter (Change.relevant isContainer)).length) ∧
    r.response.newState =
      if r.response.hasMoreChanges then
        .newIntermediate changelog.fromChangeId (changelog.changeId isContainer) (n + maxChanges)
      else if newState = .initial then .newExact (changelog.changeId isContainer)
      else newState := by
  unfold answer at hr
  split_ifs at hr
  all_goals
    obtain rfl := Except.ok.inj hr
    refine ⟨?_, by simp_all⟩
    simp only [decide_eq_true_eq, drop_drop, ne_eq, drop_eq_nil_iff]
    omega

/-- The changes of its range that a client has still to be sent. -/
def System.pending (s : System cfg) : ℕ :=
  match s.state with
  | .intermediate i => (page cfg.isContainer (between s.history i.fromId i.toId)).length - i.itemsSent
  | _ => 0

/-- The client goes on with its pages, and every answer says that there is more. -/
def AnsweredMore (s : System cfg) : Step cfg → Prop
  | .get => False
  | .request maxChanges =>
    ∃ r cache, s.ask maxChanges = .ok (r, cache) ∧ r.response.hasMoreChanges = true
  | _ => True

def Step.isRequest : Step cfg → Bool
  | .request _ => true
  | _ => false

/-- **A page** of a range leaves less of it. -/
theorem Good.pending_request (hs : Good s) (hstate : s.state = .intermediate i)
    (hc : Covered s (.request maxChanges)) (hr : s.ask maxChanges = .ok (r, cache))
    (hmore : r.response.hasMoreChanges = true) :
    ∃ j, r.response.newState = .intermediate j ∧
      (page cfg.isContainer (between s.history j.fromId j.toId)).length - j.itemsSent + 1 ≤
        (page cfg.isContainer (between s.history i.fromId i.toId)).length - i.itemsSent := by
  obtain ⟨cut, hk, habove, changelog, hlog, hanswer, -⟩ := hs.ask_intermediate hstate hc hr
  obtain ⟨hiff, hnew⟩ := answer_more hanswer
  have hlt := hiff.mp hmore
  rw [hmore] at hnew
  set es := between s.history i.fromId i.toId
  have hread : s.log.changes cfg.share (.rangeInclusive i.fromId i.toId) =
      .ok ((default : Changes).addAll es) :=
    hk.changes_inclusive (q := .rangeInclusive i.fromId i.toId) rfl habove
  obtain rfl := Except.ok.inj (hread.symm.trans hlog)
  have hpage : ((default : Changes).addAll es).changes.filter (Change.relevant cfg.isContainer) =
      page cfg.isContainer es := by
    rw [changes_addAll]
    rfl
  rw [hpage] at hlt
  have hne : es ≠ [] := by
    intro hnil
    rw [hnil] at hlt
    exact Nat.not_lt_zero _ hlt
  obtain ⟨-, hwhole⟩ := split_between hs.ascending hne
  have hbetween := page_between cfg.isContainer (hwhole.symm ▸ hs.ascending)
    (.inl rfl : FromBase 0 default) hne
  rw [hwhole] at hbetween
  have hlength := congrArg List.length hbetween
  have hlimit := cfg.limit_pos maxChanges
  have hless : (page cfg.isContainer (between s.history ((default : Changes).addAll es).fromChangeId
      (((default : Changes).addAll es).changeId cfg.isContainer))).length -
        (i.itemsSent + cfg.limit maxChanges) + 1 ≤
      (page cfg.isContainer es).length - i.itemsSent := by
    omega
  exact ⟨_, hnew, hless⟩

theorem Good.pending_step (hs : Good s) {step : Step cfg} (he : Enabled s step)
    (hc : Covered s step) (hmore : AnsweredMore s step) (hstate : ∃ i, s.state = .intermediate i) :
    (s.step step).pending + (if step.isRequest then 1 else 0) ≤ s.pending ∧
      ∃ i, (s.step step).state = .intermediate i := by
  obtain ⟨i, hi⟩ := hstate
  cases step with
  | append e =>
    have hsynced := hs.synced
    rw [hi] at hsynced
    refine ⟨?_, i, hi⟩
    have hsame : (s.step (.append e)).pending = s.pending := by
      have hbetween := between_concat he.1 (a := i.fromId) hsynced.1
      simp [System.pending, System.step, hi, hbetween]
    exact hsame.le
  | deleteChanges maxEntries expireBefore => exact ⟨le_rfl, i, hi⟩
  | evict => exact ⟨le_rfl, i, hi⟩
  | fetch =>
    have hsame : (s.step .fetch).state = s.state ∧ (s.step .fetch).history = s.history := by
      simp only [System.step]
      rcases s.getState with e | ⟨state, cache⟩ <;> exact ⟨rfl, rfl⟩
    refine ⟨?_, i, hsame.1.trans hi⟩
    unfold System.pending
    rw [hsame.1, hsame.2]
    exact le_rfl
  | get => exact absurd hmore id
  | request maxChanges =>
    obtain ⟨r, cache, hr, hyes⟩ := hmore
    obtain ⟨j, hj, hless⟩ := hs.pending_request hi hc hr hyes
    have hstep : s.step (.request maxChanges) = { s with
        cache
        state := r.response.newState
        view := r.response.apply (versionsAt cfg.isContainer s.history) s.view } := by
      simp [System.step, hr]
    rw [hstep]
    refine ⟨?_, j, hj⟩
    simp only [System.pending, hj, hi]
    exact hless

/-- **Pages come to an end**: as long as every answer says that there is more, each has something. -/
theorem Good.requests_le (hs : Good s) (he : Along Enabled s steps) (hc : Along Covered s steps)
    (hmore : Along AnsweredMore s steps) (hstate : ∃ i, s.state = .intermediate i) :
    steps.countP Step.isRequest + (s.run steps).pending ≤ s.pending := by
  induction steps generalizing s with
  | nil => simp [System.run]
  | cons step steps ih =>
    have hrest := ih (hs.step he.1 hc.1) he.2 hc.2 hmore.2
    obtain ⟨hless, hinter⟩ := hs.pending_step he.1 hc.1 hmore.1 hstate
    have hrest := hrest hinter
    rw [countP_cons]
    show steps.countP Step.isRequest + _ + ((s.step step).run steps).pending ≤ s.pending
    omega

/-! ## Runs -/

/-- A client of a log from its beginning on. -/
def System.reach (steps : List (Step cfg)) : System cfg := init.run steps

end

/-! ## A log that was cut before a client came -/

/-- The identities of an account. -/
def identities : Config where
  accountId := 0
  object := .identity
  collection := .identity
  isContainer := false
  found := rfl
  changesMaxResults := 500
  pos := by decide

/-- An identity is created. -/
def created (id : ℕ) (hpos : 0 < id) (hle : id ≤ u64Max) : Stored identities.share where
  id
  content := .sync ⟨[.insertItem (UInt64.ofNat id)], .u32, .u64, by simp⟩
  pos := hpos
  le := hle
  isShare := rfl

def first : Stored identities.share := created 1 (by decide) (by decide)

def second : Stored identities.share := created 2 (by decide) (by decide)

theorem alternating_created : Alternating ([] ++ [first]) ∧ Alternating ([] ++ [first] ++ [second]) := by
  have hevents (k : Key) (id : UInt64) : events k [.insertItem id] = if Key.item id = k then [.insert] else [] := by
    have hconcat := events_concat k [] (.insertItem id)
    exact hconcat
  constructor
  · intro k
    show Alternates false ([events k [.insertItem (UInt64.ofNat 1)]].flatten)
    rw [hevents]
    split_ifs <;> simp [Alternates]
  · intro k
    show Alternates false ([events k [.insertItem (UInt64.ofNat 1)],
      events k [.insertItem (UInt64.ofNat 2)]].flatten)
    rw [hevents, hevents]
    by_cases hone : Key.item (UInt64.ofNat 1) = k
    · rw [← hone]
      simp [Alternates]
    · split_ifs <;> simp [Alternates]

/-- One identity is created and asked for. -/
def oneRun : List (Step identities) := [.append first, .request none]

/-- Two identities are created, the log is cut to one entry, and a client asks for all changes. -/
def cutRun : List (Step identities) :=
  [.append first, .append second, .deleteChanges (some 1) none, .request none]

theorem add_second {c : Changes} (hc : c.changes = []) :
    c.add second = ⟨[.insertItem 2], 2, 2, c.containerChangeId, some 2, c.isTruncated⟩ := by
  have hlog : Store.Write.Changes.ofLog [.insertItem (UInt64.ofNat 2)] =
      { (default : Store.Write.Changes) with itemInserts := {2} } := rfl
  have habsorb : second.absorb [] = [.insertItem 2] := by
    show absorb .u32 .u64 [] (Store.Write.Changes.ofLog [.insertItem (UInt64.ofNat 2)]) = _
    rw [hlog]
    unfold absorb absorbIds
    have hdefault : (default : Store.Write.Changes) = ⟨∅, ∅, ∅, ∅, ∅, ∅, ∅⟩ := rfl
    simp [hdefault, Utils.HashOrder.iter_empty, Utils.HashOrder.iter_singleton, insertItem]
  unfold Changes.add
  rw [hc, habsorb]
  rfl

/-- The log after the cut. -/
def cutLog : Log := [(1, []), second.entry]

theorem changes_cutLog : cutLog.changes false .all = .ok ⟨[.insertItem 2], 2, 2, none, some 2, true⟩ := by
  have hsecond : Changes.visit false true 0 { (default : Changes) with isTruncated := true } second.entry =
      .ok (Changes.add { (default : Changes) with isTruncated := true } second) :=
    visit_entry _ second (.inl rfl)
  show List.foldlM (Changes.visit false true 0) { (default : Changes) with isTruncated := true }
    [second.entry] = _
  rw [foldlM_cons, hsecond, add_second rfl]
  rfl

end MailServer.Jmap
