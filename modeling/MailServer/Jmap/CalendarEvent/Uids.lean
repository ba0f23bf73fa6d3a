import MailServer.Jmap.CalendarEvent.Set
import MailServer.Lib.Except

/-!
# UIDs and calendars of events

* `Sound`: what is claimed of the events of an account.  `SameUids`: what is claimed of two of its states.
* `updateCalendarEvent_spec`, `createCalendarEvent_spec`, `updateEvent_spec`: what the checks of one create or update
  leave.
* `written_of_applyAll`: what a part of a batch makes of the events.
* `uids_run`: runs.
-/

namespace MailServer.Jmap.CalendarEvent

open MailServer.Types MailServer.Common MailServer.JmapProto MailServer.Groupware MailServer.Utils MailServer.Lib
open List Option DavName Post

variable {I G : Type} {s : Server I G} {uid : I → Option String} {a b : Account I}

/-! ## What is claimed -/

/-- An event is linked to a calendar, at most once to each, and to none that does not exist. -/
structure Linked (calendars : HashMap ℕ Calendar) (names : List DavName) : Prop where
  some : names ≠ []
  once : (names.map parentId).Nodup
  exist : ∀ k ∈ names.map parentId, calendars[k]? ≠ none

structure Sound (uid : I → Option String) (a : Account I) : Prop where
  unique : ∀ (i j : ℕ) (e f : Groupware.CalendarEvent I) (u : String), a.events[i]? = some e → a.events[j]? = some f →
    uid e.event = some u → uid f.event = some u → i = j
  linked : ∀ (i : ℕ) (e : Groupware.CalendarEvent I), a.events[i]? = some e → Linked a.calendars e.names

/-- An event that is stored before and after keeps its UID. -/
def SameUids (uid : I → Option String) (a b : Account I) : Prop :=
  ∀ (i : ℕ) (e f : Groupware.CalendarEvent I), a.events[i]? = some e → b.events[i]? = some f → uid f.event = uid e.event

/-- The invariant: the index agrees with the events, and the counter is ahead of them. -/
structure Inv (uid : I → Option String) (a : Account I) : Prop extends Sound uid a where
  indexed : Indexed uid a
  fresh : ∀ i, a.events[i]? ≠ none → i < a.nextEventId

/-! ## What is assumed -/

/-- Scheduling changes the sequence and the parameters of an event, and leaves its UID. -/
structure KeepsUid (s : Server I G) : Prop where
  itipCreate : ∀ ical addresses, s.cal.uid (s.itipCreate ical addresses).1 = s.cal.uid ical
  itipUpdate : ∀ ical old addresses, s.cal.uid (s.itipUpdate ical old addresses).1 = s.cal.uid ical

/-- No two creates have one UID, and none has an empty one when there is an event with an empty one. -/
structure CreatesFine (uid : I → Option String) (a : Account I) (created : List (ℕ × Groupware.CalendarEvent I)) :
    Prop where
  apart : created.Pairwise fun x y => ∀ u, uid x.2.event = some u → uid y.2.event ≠ some u
  empty : ∀ x ∈ created, uid x.2.event = some "" → ∀ (i : ℕ) (e : Groupware.CalendarEvent I), a.events[i]? = some e →
    uid e.event ≠ some ""

/-- No update takes the UID of an event away. -/
def UpdatesFine (uid : I → Option String) (updates : List (Update I)) : Prop :=
  ∀ u ∈ updates, uid u.changes.event = none → uid u.current.event = none

/-! ## Names -/

theorem retainNames_spec (names : List DavName) (newIds : Finset ℕ) :
    ((retainNames names newIds).1.map parentId).Nodup ∧ (retainNames names newIds).2 ⊆ newIds ∧
      ∀ k ∈ (retainNames names newIds).1.map parentId, k ∈ newIds ∧ k ∉ (retainNames names newIds).2 := by
  induction names generalizing newIds with
  | nil => exact ⟨nodup_nil, fun _ h => h, nofun⟩
  | cons name rest ih =>
    rw [retainNames]
    by_cases hmem : name.parentId ∈ newIds
    · obtain ⟨hnodup, hsub, hapart⟩ := ih (newIds.erase name.parentId)
      rw [if_pos hmem]
      refine ⟨nodup_cons.mpr ⟨fun hin => ?_, hnodup⟩, fun k hk => Finset.mem_of_mem_erase (hsub hk), ?_⟩
      · exact (Finset.mem_erase.mp (hapart _ hin).1).1 rfl
      · intro k hk
        rcases mem_cons.mp hk with rfl | hk
        · exact ⟨hmem, fun hin => (Finset.mem_erase.mp (hsub hin)).1 rfl⟩
        · exact ⟨Finset.mem_of_mem_erase (hapart k hk).1, (hapart k hk).2⟩
    · rw [if_neg hmem]
      exact ih newIds

/-- **A patch of the calendars** links none twice. -/
theorem patchParentIds_spec {randName : ℕ → String} {names : List DavName} (h : (names.map parentId).Nodup)
    (patch : Option (JsonPointerItem JSCalendarProperty)) (value : Value) :
    Post (fun names => (names.map parentId).Nodup) (fun _ => True)
      (patchParentIds s randName names patch value) := by
  have hfilter : ∀ p : DavName → Bool, ((names.filter p).map parentId).Nodup :=
    fun p => h.sublist (filter_sublist.map _)
  unfold patchParentIds
  split
  · exact hfilter _
  · exact hfilter _
  · dsimp only
    split_ifs with hany
    · exact h
    · refine post_ok.mpr ?_
      rw [map_append, nodup_append]
      refine ⟨h, nodup_singleton _, fun k hk k' hk' => ?_⟩
      obtain rfl := mem_singleton.mp hk'
      obtain ⟨name, hname, rfl⟩ := List.mem_map.mp hk
      rintro heq
      exact hany (List.any_eq_true.mpr ⟨name, hname, by simpa using heq⟩)
  · rename_i object
    obtain ⟨hnodup, -, hapart⟩ := retainNames_spec names ((s.cal.booleanSet object).filterMap idValue).toFinset
    have hids (l : List ℕ) : (l.map fun id => (⟨randName id, id⟩ : DavName)).map parentId = l := by
      rw [List.map_map]
      exact List.map_id l
    refine post_ok.mpr ?_
    rw [map_append, hids, nodup_append]
    refine ⟨hnodup, s.order.nodup _, fun k hk k' hk' => ?_⟩
    rintro rfl
    exact (hapart k hk).2 ((s.order.mem_iter _ _).mp hk')
  · trivial

theorem readProperty_spec {randName : ℕ → String} (d : Draft G) (e : Key JSCalendarProperty × Value)
    (h : (d.names.map parentId).Nodup) :
    Post (fun d : Draft G => (d.names.map parentId).Nodup) (fun _ => True) (readProperty s randName d e) := by
  have hnames : ∀ (patch : Option (JsonPointerItem JSCalendarProperty)) (value : Value),
      Post (fun d : Draft G => (d.names.map parentId).Nodup) (fun _ => True)
        ((patchParentIds s randName d.names patch value).map fun names => { d with names }) :=
    fun patch value => (patchParentIds_spec h patch value).map fun _ hnames => hnames
  unfold readProperty
  split
  · trivial
  · split
    case h_8 => exact hnames _ _
    case h_9 => exact hnames _ _
    case h_10 => split <;> trivial
    all_goals first
      | exact h
      | trivial
      | (split_ifs <;> first | exact h | trivial)

/-- **What a create or an update says** of the calendars. -/
theorem updateCalendarEvent_spec (object : EventObject) {names : List DavName}
    (h : (names.map parentId).Nodup) (flags : UInt16) (group : G) :
    Post (fun d : Draft G => d.names ≠ [] ∧ (d.names.map parentId).Nodup) (fun _ => True)
      (updateCalendarEvent s object names flags group) := by
  have hstart : ((⟨names, flags, group, none, none, false, false⟩ : Draft G).names.map parentId).Nodup := h
  refine (foldlM readProperty_spec hstart).bind fun d hd => ?_
  refine (post_true _).bind fun group _ => ite (fun _ => trivial) fun hempty => ?_
  exact ⟨fun hnil => hempty (List.isEmpty_iff.mpr hnil), hd⟩

/-! ## The checks -/

theorem checkCalendar_spec (canAddCalendars : Option (List ℕ)) (k : ℕ) :
    Post (fun _ => a.calendars[k]? ≠ none) (fun _ => True) (checkCalendar a canAddCalendars k) := by
  refine ite (fun _ => trivial) fun hsome => ite (fun _ => trivial) fun _ => ?_
  exact fun hnone => hsome (by rw [hnone]; rfl)

theorem assertIsUniqueUid_spec (hinv : Indexed uid a) (value : Option String) :
    Post (fun _ => ∀ u, u ≠ "" → value = some u → ∀ (i : ℕ) (e : Groupware.CalendarEvent I), a.events[i]? = some e →
      uid e.event ≠ some u) (fun _ => True) (assertIsUniqueUid a value) := by
  cases value with
  | none => exact fun u _ hu => by cases hu
  | some v =>
    refine ite (fun _ => trivial) fun hexists => ?_
    rintro u hu ⟨⟩ i e he huid
    exact hexists ((hinv.documentExists hu).mpr ⟨i, e, he, huid⟩)

theorem scheduled_spec {r : I × Except ItipError (List ItipMessage)} {value : Option String}
    (h : s.cal.uid r.1 = value) (sent : List ItipMessage → Option ℕ) (unsent : Option ℕ) :
    Post (fun x : I × Option ℕ => s.cal.uid x.1 = value) (fun _ => True) (scheduled s r sent unsent) := by
  unfold scheduled
  split
  · exact ite (fun _ => h) fun _ => trivial
  · exact ite (fun _ => trivial) fun _ => h

theorem scheduleCreate_spec (hs : KeepsUid s) (c : Circumstances) (sendSchedulingMessages : Bool) (ical : I) :
    Post (fun x : I × Option ℕ => s.cal.uid x.1 = s.cal.uid ical) (fun _ => True)
      (scheduleCreate s c sendSchedulingMessages ical) :=
  ite (fun _ => scheduled_spec (hs.itipCreate ical c.addresses) _ _) fun _ => rfl

theorem scheduleUpdate_spec (hs : KeepsUid s) (c : Circumstances) (sendSchedulingMessages : Bool) (old : I)
    (scheduleTag : Option ℕ) (ical : I) :
    Post (fun x : I × Option ℕ => s.cal.uid x.1 = s.cal.uid ical) (fun _ => True)
      (scheduleUpdate s c sendSchedulingMessages old scheduleTag ical) := by
  refine ite (fun _ => ?_) fun _ => rfl
  cases scheduleTag with
  | none => exact scheduled_spec (hs.itipCreate ical c.addresses) _ _
  | some tag => exact scheduled_spec (hs.itipUpdate ical old c.addresses) _ _

/-- A create that passes its checks. -/
structure Accepted (uid : I → Option String) (a : Account I) (e : Groupware.CalendarEvent I) : Prop where
  linked : Linked a.calendars e.names
  new : ∀ u, u ≠ "" → uid e.event = some u → ∀ (i : ℕ) (f : Groupware.CalendarEvent I), a.events[i]? = some f →
    uid f.event ≠ some u

/-- **What the checks of a create leave.** -/
theorem createCalendarEvent_spec (hs : KeepsUid s) (hinv : Indexed s.cal.uid a) (c : Circumstances)
    (sendSchedulingMessages : Bool) (canAddCalendars : Option (List ℕ)) (group : G) (object : EventObject) :
    Post (Accepted s.cal.uid a) (fun _ => True)
      (createCalendarEvent s a c sendSchedulingMessages canAddCalendars group object) := by
  have hnil : (([] : List DavName).map parentId).Nodup := nodup_nil
  refine (updateCalendarEvent_spec object hnil 0 group).bind fun d hd => ?_
  refine (post_true _).bind fun ical _ => ?_
  refine (forM fun name : DavName => checkCalendar_spec canAddCalendars name.parentId).bind fun _ hexist => ?_
  refine (assertIsUniqueUid_spec hinv _).bind fun _ hnew => (post_true _).bind fun _ _ => ?_
  refine (scheduleCreate_spec hs c sendSchedulingMessages _).bind fun x hx => (post_true _).bind fun _ _ => ?_
  refine ⟨⟨hd.1, hd.2, fun k hk => ?_⟩, fun u hu huid => hnew u hu (hx ▸ huid)⟩
  obtain ⟨name, hname, rfl⟩ := List.mem_map.mp hk
  exact hexist name hname

theorem checkUid_spec (new old : Option String) :
    Post (fun _ => new = none ∨ new = old) (fun _ => True) (checkUid new old) := by
  unfold checkUid
  split
  · exact ite (fun heq => .inr (congrArg some heq)) fun _ => trivial
  · exact .inl rfl
  · exact .inl rfl
  · trivial

/-- **What the checks of an update leave.** -/
theorem updateEvent_spec (hs : KeepsUid s) (c : Circumstances) (accountId : UInt32) (sendSchedulingMessages : Bool)
    {event : Groupware.CalendarEvent I} (hevent : Linked a.calendars event.names) (object : EventObject) :
    Post (fun new : Groupware.CalendarEvent I => Linked a.calendars new.names ∧
        (s.cal.uid new.event = none ∨ s.cal.uid new.event = s.cal.uid event.event)) (fun _ => True)
      (updateEvent s a c accountId sendSchedulingMessages event object) := by
  refine (updateCalendarEvent_spec object hevent.once event.flags _).bind fun d hd => ?_
  refine (post_true _).bind fun ical _ => (checkUid_spec _ _).bind fun _ huid => ?_
  refine (forM (checkCalendar_spec _)).bind fun _ hadded => ?_
  refine (post_true _).bind fun _ _ => (post_true _).bind fun _ _ => (post_true _).bind fun _ _ => ?_
  refine (scheduleUpdate_spec hs c sendSchedulingMessages _ _ ical).bind fun x hx => ?_
  have hnew : Linked a.calendars d.names ∧ (s.cal.uid x.1 = none ∨ s.cal.uid x.1 = s.cal.uid event.event) := by
    refine ⟨⟨hd.1, hd.2, fun k hk => ?_⟩, by rwa [hx]⟩
    by_cases hold : k ∈ event.calendarIds
    · exact hevent.exist k hold
    · exact hadded k (mem_filter.mpr ⟨hk, by simpa using hold⟩)
  refine ite (fun _ => (post_true _).bind fun _ _ => hnew) fun _ => hnew

/-! ## The loops -/

/-- **The creates of a request** get the document ids from the counter on. -/
theorem createEach_spec {K X : Type} {create : K → X → Except Error (Groupware.CalendarEvent I)}
    {P : Groupware.CalendarEvent I → Prop} (hcreate : ∀ k x, Post P (fun _ => True) (create k x)) (l : List (K × X))
    (nextId : ℕ) :
    (∀ x ∈ (createEach create l nextId).2.2, P x.2 ∧ nextId ≤ x.1 ∧
        x.1 < nextId + (createEach create l nextId).1.length) ∧
      ((createEach create l nextId).2.2.map Prod.fst).Nodup := by
  induction l generalizing nextId with
  | nil => exact ⟨nofun, nodup_nil⟩
  | cons k l ih =>
    rw [createEach]
    have hk := hcreate k.1 k.2
    cases hevent : create k.1 k.2 with
    | error e => exact ih nextId
    | ok event =>
      obtain ⟨hall, hnodup⟩ := ih (nextId + 1)
      rw [hevent] at hk
      refine ⟨fun x hx => ?_, nodup_cons.mpr ⟨fun hin => ?_, hnodup⟩⟩
      · rcases mem_cons.mp hx with rfl | hx
        · exact ⟨hk, le_rfl, by simp⟩
        · obtain ⟨hP, hle, hlt⟩ := hall x hx
          refine ⟨hP, by omega, ?_⟩
          rw [length_cons]
          omega
      · obtain ⟨x, hx, hid⟩ := List.mem_map.mp hin
        have := (hall x hx).2.1
        omega

theorem checkEach_spec {X Y : Type} {check : X → Except Error Y} {P : Y → Prop}
    (hcheck : ∀ x, Post P (fun _ => True) (check x)) (l : List X) : ∀ y ∈ (checkEach check l).1, P y := by
  induction l with
  | nil => nofun
  | cons x l ih =>
    rw [checkEach]
    have hx := hcheck x
    cases hy : check x with
    | error e => exact ih
    | ok y =>
      rw [hy] at hx
      exact forall_mem_cons.mpr ⟨hx, ih⟩

/-! ## The batch -/

/-- A write of a request, on the account that its checks have seen. -/
inductive Checked (uid : I → Option String) (a : Account I) (created : List (ℕ × Groupware.CalendarEvent I)) :
    Op I → Prop
  | create {id : ℕ} {e : Groupware.CalendarEvent I} (h : (id, e) ∈ created) : Checked uid a created ⟨id, none, some e⟩
  | update {id : ℕ} {c e : Groupware.CalendarEvent I} (hc : a.events[id]? = some c) (hlinked : Linked a.calendars e.names)
      (huid : uid e.event = uid c.event) : Checked uid a created ⟨id, some c, some e⟩
  | destroy {id : ℕ} {c : Groupware.CalendarEvent I} (hc : a.events[id]? = some c) :
      Checked uid a created ⟨id, some c, none⟩

/-- What a part of a batch makes of an account. -/
structure Written (uid : I → Option String) (a : Account I) (created : List (ℕ × Groupware.CalendarEvent I))
    (ops : List (Op I)) (b : Account I) : Prop where
  calendars : b.calendars = a.calendars
  indexed : Indexed uid b
  linked : ∀ (i : ℕ) (e : Groupware.CalendarEvent I), b.events[i]? = some e → Linked a.calendars e.names
  /-- an event is one that was there, with its UID, or was created by one of the writes -/
  source : ∀ (i : ℕ) (e : Groupware.CalendarEvent I), b.events[i]? = some e →
    (∃ c, a.events[i]? = some c ∧ uid e.event = uid c.event) ∨ (i, e) ∈ created ∧ ∃ op ∈ ops, op.id = i

section

variable {created : List (ℕ × Groupware.CalendarEvent I)} {ops : List (Op I)} {op : Op I}
  {hash : Groupware.CalendarEvent I → UInt32}

theorem Written.indexItem_eq (hw : Written uid a created ops b) (hinv : Inv uid a)
    (hcreated : ∀ x ∈ created, a.nextEventId ≤ x.1) (hop : Checked uid a created op)
    (hnew : op.current = none → ∀ o ∈ ops, o.id ≠ op.id) {b' : Account I} (happly : b.apply uid hash op = some b') :
    indexItem uid b.events[op.id]? = indexItem uid op.current := by
  have hfresh : ∀ (i : ℕ) (c e : Groupware.CalendarEvent I), a.events[i]? = some c → (i, e) ∉ created := by
    intro i c e hc hmem
    have hlt := hinv.fresh i (by rw [hc]; nofun)
    have hle := hcreated _ hmem
    omega
  obtain ⟨events, hevents, -⟩ := map_eq_some_iff.mp happly
  have hold : ∀ c, op.current = some c → a.events[op.id]? = some c →
      indexItem uid b.events[op.id]? = indexItem uid op.current := by
    intro c hcurrent hc
    rw [hcurrent] at hevents ⊢
    obtain ⟨e, he, -⟩ := Email.putArchive_current hevents
    rcases hw.source op.id e he with ⟨c', hc', huid⟩ | ⟨hmem, -⟩
    · obtain rfl := some.inj (hc.symm.trans hc')
      show indexItem uid b.events[op.id]? = (uid c.event).getD ""
      rw [he, ← huid]
      rfl
    · exact absurd hmem (hfresh op.id c e hc)
  cases hop with
  | update hc => exact hold _ rfl hc
  | destroy hc => exact hold _ rfl hc
  | @create id e hmem =>
    cases hb : b.events[id]? with
    | none => rfl
    | some f =>
      rcases hw.source id f hb with ⟨c, hc, -⟩ | ⟨-, o, ho, hid⟩
      · exact absurd hmem (hfresh id c e hc)
      · exact absurd hid (hnew rfl o ho)

/-- **One write of a batch.** -/
theorem Written.step (hw : Written uid a created ops b) (hinv : Inv uid a)
    (hcreated : ∀ x ∈ created, Accepted uid a x.2 ∧ a.nextEventId ≤ x.1) (hop : Checked uid a created op)
    (hnew : op.current = none → ∀ o ∈ ops, o.id ≠ op.id) {b' : Account I} (happly : b.apply uid hash op = some b') :
    Written uid a created (ops ++ [op]) b' := by
  have hindexed := hw.indexed.apply
    (hw.indexItem_eq hinv (fun x hx => (hcreated x hx).2) hop hnew happly) happly
  obtain ⟨events, hevents, rfl⟩ := map_eq_some_iff.mp happly
  have hwritten : ∀ (i : ℕ) (e : Groupware.CalendarEvent I), events[i]? = some e →
      (op.id = i ∧ op.changes = some e) ∨ b.events[i]? = some e := by
    intro i e he
    rw [Email.putArchive_eq hevents] at he
    split_ifs at he with hid
    · exact .inl ⟨hid, he⟩
    · exact .inr he
  refine ⟨hw.calendars, hindexed, fun i e he => ?_, fun i e he => ?_⟩
  · rcases hwritten i e he with ⟨-, hchanges⟩ | hkept
    · cases hop with
      | create hmem =>
        obtain rfl := some.inj hchanges
        exact (hcreated _ hmem).1.linked
      | update hc hlinked =>
        obtain rfl := some.inj hchanges
        exact hlinked
      | destroy hc => cases hchanges
    · exact hw.linked i e hkept
  · rcases hwritten i e he with ⟨rfl, hchanges⟩ | hkept
    · cases hop with
      | create hmem =>
        obtain rfl := some.inj hchanges
        exact .inr ⟨hmem, _, mem_append_right _ (mem_singleton_self _), rfl⟩
      | update hc hlinked huid =>
        obtain rfl := some.inj hchanges
        exact .inl ⟨_, hc, huid⟩
      | destroy hc => cases hchanges
    · exact (hw.source i e hkept).imp_right fun ⟨hmem, o, ho, hid⟩ => ⟨hmem, o, mem_append_left _ ho, hid⟩

/-- **A part of a batch.** -/
theorem written_of_applyAll (hinv : Inv uid a) (nextEventId : ℕ)
    (hcreated : ∀ x ∈ created, Accepted uid a x.2 ∧ a.nextEventId ≤ x.1)
    (hchecked : ∀ op ∈ ops, Checked uid a created op)
    (hnew : ops.Pairwise fun o op => op.current = none → o.id ≠ op.id) :
    ∀ {b : Account I}, applyAll (Account.apply uid hash) ops { a with nextEventId } = some b →
      Written uid a created ops b ∧ b.nextEventId = nextEventId := by
  induction ops using List.reverseRecOn with
  | nil =>
    intro b h
    obtain rfl := some.inj h
    exact ⟨⟨rfl, hinv.indexed, hinv.linked, fun i e he => .inl ⟨e, he, rfl⟩⟩, rfl⟩
  | append_singleton ops op ih =>
    intro b h
    rw [applyAll_append] at h
    obtain ⟨b₀, hb₀, hb⟩ := bind_eq_some_iff.mp h
    obtain ⟨hpairs, -, hlast⟩ := pairwise_append.mp hnew
    obtain ⟨hw, hnext⟩ := ih (fun o ho => hchecked o (mem_append_left _ ho)) hpairs hb₀
    have happly := applyAll_singleton hb
    refine ⟨hw.step hinv hcreated (hchecked op (by simp)) (fun hcurrent o ho => hlast o ho op (by simp) hcurrent) happly,
      ?_⟩
    obtain ⟨events, -, rfl⟩ := map_eq_some_iff.mp happly
    exact hnext

/-- **What a part of a batch keeps.** -/
theorem Written.inv (hw : Written uid a created ops b) (hinv : Inv uid a) {n : ℕ}
    (hnext : b.nextEventId = a.nextEventId + n)
    (hcreated : ∀ x ∈ created, Accepted uid a x.2 ∧ a.nextEventId ≤ x.1 ∧ x.1 < a.nextEventId + n)
    (hfine : CreatesFine uid a created) : Inv uid b ∧ SameUids uid a b := by
  have hold : ∀ (i : ℕ) (c e : Groupware.CalendarEvent I), a.events[i]? = some c → (i, e) ∉ created := by
    intro i c e hc hmem
    have hlt := hinv.fresh i (by rw [hc]; nofun)
    have hle := (hcreated _ hmem).2.1
    omega
  have hapart : ∀ (i j : ℕ) (c e f : Groupware.CalendarEvent I) (u : String), a.events[i]? = some c →
      uid e.event = uid c.event → (j, f) ∈ created → uid e.event = some u → uid f.event ≠ some u := by
    intro i j c e f u hc huid hmem hu hf
    rw [huid] at hu
    by_cases hempty : u = ""
    · subst hempty
      exact hfine.empty _ hmem hf i c hc hu
    · exact (hcreated _ hmem).1.new u hempty hf i c hc hu
  refine ⟨⟨⟨?_, ?_⟩, hw.indexed, ?_⟩, ?_⟩
  · intro i j e f u he hf hue huf
    rcases hw.source i e he with ⟨c, hc, hec⟩ | ⟨hmem, -⟩ <;> rcases hw.source j f hf with ⟨d, hd, hfd⟩ | ⟨hmem', -⟩
    · exact hinv.unique i j c d u hc hd (hec ▸ hue) (hfd ▸ huf)
    · exact absurd huf (hapart i j c e f u hc hec hmem' hue)
    · exact absurd hue (hapart j i d f e u hd hfd hmem huf)
    · by_contra hne
      have : Std.Symm fun x y : ℕ × Groupware.CalendarEvent I =>
          ∀ u, uid x.2.event = some u → uid y.2.event ≠ some u := ⟨fun x y hxy u hy hx => hxy u hx hy⟩
      exact hfine.apart.forall hmem hmem' (fun heq => hne (Prod.mk.inj heq).1) u hue huf
  · intro i e he
    rw [hw.calendars]
    exact hw.linked i e he
  · intro i hi
    obtain ⟨e, he⟩ := ne_none_iff_exists'.mp hi
    rw [hnext]
    rcases hw.source i e he with ⟨c, hc, -⟩ | ⟨hmem, -⟩
    · exact Nat.lt_add_right n (hinv.fresh i (by rw [hc]; nofun))
    · exact (hcreated _ hmem).2.2
  · intro i e f he hf
    rcases hw.source i f hf with ⟨c, hc, huid⟩ | ⟨hmem, -⟩
    · obtain rfl := some.inj (he.symm.trans hc)
      exact huid
    · exact absurd hmem (hold i e f he)

/-- **A batch**, of which some first groups are written. -/
theorem inv_batch (hinv : Inv uid a) {n : ℕ}
    (hcreated : ∀ x ∈ created, Accepted uid a x.2 ∧ a.nextEventId ≤ x.1 ∧ x.1 < a.nextEventId + n)
    (hids : (created.map Prod.fst).Nodup) (hfine : CreatesFine uid a created) (rest : List (Op I))
    (hrest : ∀ op ∈ rest, Checked uid a created op ∧ op.current ≠ none) {groups : List (List (Op I))}
    (hgroups : groups.flatten = (created.map fun x => ⟨x.1, none, some x.2⟩) ++ rest) (cuts : List ℕ) :
    Inv uid (commitGroups (Account.apply uid hash) cuts groups { a with nextEventId := a.nextEventId + n }).1 ∧
      SameUids uid a
        (commitGroups (Account.apply uid hash) cuts groups { a with nextEventId := a.nextEventId + n }).1 := by
  obtain ⟨k, hk, -⟩ := commitGroups_spec (Account.apply uid hash) cuts groups
    { a with nextEventId := a.nextEventId + n }
  have hsub : (groups.take k).flatten.Sublist groups.flatten := by
    conv_rhs => rw [← take_append_drop k groups, flatten_append]
    exact sublist_append_left _ _
  have hchecked : ∀ op ∈ groups.flatten, Checked uid a created op := by
    intro op hop
    rw [hgroups] at hop
    rcases mem_append.mp hop with hop | hop
    · obtain ⟨x, hx, rfl⟩ := List.mem_map.mp hop
      exact .create hx
    · exact (hrest op hop).1
  have hnew : groups.flatten.Pairwise fun o op => op.current = none → o.id ≠ op.id := by
    rw [hgroups]
    refine pairwise_append.mpr ⟨?_, ?_, fun o _ op hop hnone => absurd hnone (hrest op hop).2⟩
    · rw [pairwise_map]
      exact (pairwise_map.mp hids).imp fun hne (_ : none = none) => hne
    · exact pairwise_of_forall_mem_list fun o _ op hop hnone => absurd hnone (hrest op hop).2
  obtain ⟨hw, hnext⟩ := written_of_applyAll hinv _ (fun x hx => ⟨(hcreated x hx).1, (hcreated x hx).2.1⟩)
    (fun op hop => hchecked op (hsub.subset hop)) (hnew.sublist hsub) hk
  exact hw.inv hinv hnext hcreated hfine

end

/-! ## Requests and runs -/

inductive Action (I : Type) where
  | set (c : Circumstances) (request : SetRequest)
  | copy (c : Circumstances) (stateMatches : Bool) (source : Source I) (request : CopyRequest)

/-- A request; one that is refused changes nothing. -/
def step (s : Server I G) (a : Account I) : Action I → Option (Account I)
  | .set c request => some (calendarEventSet s a c request).1
  | .copy c stateMatches source request => some (calendarEventCopy s a c stateMatches source request).1

/-- The creates of a request do not collide, and its updates take no UID away. -/
def RequestFine (s : Server I G) (a : Account I) : Action I → Prop
  | .set c request => CreatesFine s.cal.uid a (setCreates s a c request).2.2 ∧
      UpdatesFine s.cal.uid (setUpdates s a c request).1
  | .copy c _ source request => CreatesFine s.cal.uid a (copyCreates s a c source request).2.2

theorem flatten_createOps (batch : List (ℕ × Groupware.CalendarEvent I)) :
    (createOps batch).flatten = batch.map fun x => ⟨x.1, none, some x.2⟩ := map_eq_flatMap.symm

theorem calendarEventCopy_fst (c : Circumstances) (stateMatches : Bool) (source : Source I) (request : CopyRequest) :
    (calendarEventCopy s a c stateMatches source request).1 = a ∨
      (calendarEventCopy s a c stateMatches source request).1 =
        (commitGroups (Account.apply s.cal.uid s.hash) c.cuts (createOps (copyCreates s a c source request).2.2)
          { a with nextEventId := a.nextEventId + (copyCreates s a c source request).1.length }).1 := by
  unfold calendarEventCopy
  by_cases haccount : request.accountId.documentId = request.fromAccountId.documentId
  · rw [if_pos haccount]
    exact .inl rfl
  rw [if_neg haccount]
  by_cases hstate : ¬ stateMatches = true
  · rw [if_pos hstate]
    exact .inl rfl
  rw [if_neg hstate]
  refine .inr ?_
  dsimp only
  split_ifs <;> rfl

theorem calendarEventSet_fst (c : Circumstances) (request : SetRequest) :
    (calendarEventSet s a c request).1 = a ∨
      (calendarEventSet s a c request).1 =
        (commitGroups (Account.apply s.cal.uid s.hash) c.cuts
          (createOps (setCreates s a c request).2.2 ++ updateOps (setUpdates s a c request).1 ++
            [destroyOps (setDestroys a c request).1])
          { a with nextEventId := a.nextEventId + (setCreates s a c request).1.length }).1 := by
  unfold calendarEventSet
  by_cases hlarge : s.setMaxObjects < request.numObjects
  · rw [if_pos hlarge]
    exact .inl rfl
  refine .inr ?_
  dsimp only
  split_ifs <;> rfl

theorem checkUpdate_spec (hs : KeepsUid s) (hinv : Inv s.cal.uid a) (c : Circumstances) (request : SetRequest)
    (id : Id) (object : EventObject) :
    Post (fun u : Update I => a.events[u.id.documentId.toNat]? = some u.current ∧ Linked a.calendars u.changes.names ∧
        (s.cal.uid u.changes.event = none ∨ s.cal.uid u.changes.event = s.cal.uid u.current.event)) (fun _ => True)
      (checkUpdate s a c request id object) := by
  refine ite (fun _ => trivial) fun _ => ite (fun _ => trivial) fun _ => ?_
  cases he : a.events[id.documentId.toNat]? with
  | none => trivial
  | some event => exact (updateEvent_spec hs c _ _ (hinv.linked _ _ he) object).map fun _ hnew => ⟨he, hnew⟩

theorem checkDestroy_spec (c : Circumstances) (request : SetRequest) (id : Id) :
    Post (fun d : Id × Groupware.CalendarEvent I => a.events[d.1.documentId.toNat]? = some d.2) (fun _ => True)
      ((checkDestroy a c request id).map fun event => (id, event)) := by
  unfold checkDestroy
  cases he : a.events[id.documentId.toNat]? with
  | none => trivial
  | some event =>
    refine map (Q := fun e => e = event) (ite (fun _ => trivial) fun _ => ?_) fun e heq => ?_
    · exact (post_true _).map fun _ _ => rfl
    · rw [he, heq]

/-- **One request** keeps the invariant and the UIDs. -/
theorem inv_request (hs : KeepsUid s) (hinv : Inv s.cal.uid a) {x : Action I} (hfine : RequestFine s a x)
    (h : step s a x = some b) : Inv s.cal.uid b ∧ SameUids s.cal.uid a b := by
  have hsame : Inv s.cal.uid a ∧ SameUids s.cal.uid a a := by
    refine ⟨hinv, fun i e f he hf => ?_⟩
    obtain rfl := some.inj (he.symm.trans hf)
    rfl
  have hcreate := createCalendarEvent_spec hs hinv.indexed
  cases x with
  | copy c stateMatches source request =>
    obtain rfl := some.inj h
    have hcopy : ∀ id object, Post (Accepted s.cal.uid a) (fun _ => True) (copyEvent s a c source request id object) := by
      intro id object
      refine ite (fun _ => trivial) fun _ => ite (fun _ => trivial) fun _ => ?_
      cases source.events[id.documentId.toNat]? with
      | none => trivial
      | some ical => exact hcreate c _ _ _ object
    obtain ⟨hcreated, hids⟩ := createEach_spec hcopy request.create a.nextEventId
    rcases calendarEventCopy_fst c stateMatches source request with heq | heq <;> rw [heq]
    · exact hsame
    · refine inv_batch hinv hcreated hids hfine [] nofun ?_ c.cuts
      rw [append_nil]
      exact flatten_createOps _
  | set c request =>
    obtain rfl := some.inj h
    obtain ⟨hcreated, hids⟩ := createEach_spec (fun (_ : String) object => hcreate c _ _ _ object) request.create
      a.nextEventId
    rcases calendarEventSet_fst c request with heq | heq <;> rw [heq]
    · exact hsame
    · refine inv_batch hinv hcreated hids hfine.1
        ((updateOps (setUpdates s a c request).1).flatten ++ destroyOps (setDestroys a c request).1) ?_ ?_ c.cuts
      · intro op hop
        rcases mem_append.mp hop with hop | hop
        · obtain ⟨ops, hops, hop⟩ := mem_flatten.mp hop
          obtain ⟨u, hu, rfl⟩ := List.mem_map.mp hops
          obtain rfl := mem_singleton.mp hop
          obtain ⟨hcurrent, hlinked, huid⟩ :=
            checkEach_spec (fun x : Id × EventObject => checkUpdate_spec hs hinv c request x.1 x.2) request.update u hu
          refine ⟨.update hcurrent hlinked (huid.elim (fun hnone => ?_) id), nofun⟩
          rw [hnone, hfine.2 u hu hnone]
        · obtain ⟨d, hd, rfl⟩ := List.mem_map.mp hop
          exact ⟨.destroy (checkEach_spec (checkDestroy_spec c request) request.destroy d hd), nofun⟩
      · rw [flatten_append, flatten_append, flatten_createOps, append_assoc, flatten_singleton]
        rfl

/-- **In every run** whose requests are fine, the events have different UIDs, each of them is linked to calendars that
exist, at most once to each, and none changes its UID. -/
theorem uids_run (hs : KeepsUid s) (hinv : Inv s.cal.uid a) {requests : List (Action I)}
    (hfine : Run.Each (step s) (RequestFine s) a requests) :
    Run.Always (step s) (Sound s.cal.uid) a requests ∧
      Run.Each (step s) (fun a x => ∀ b, step s a x = some b → SameUids s.cal.uid a b) a requests := by
  refine ⟨?_, ?_⟩
  · exact (Run.always_of_each (fun _ _ _ hinv hfine h => (inv_request hs hinv hfine h).1) hinv hfine).mono
      fun _ hinv => hinv.toSound
  · refine Run.each_of_each (fun a x b hinv hfine h => ⟨(inv_request hs hinv hfine h).1, fun b' h' => ?_⟩) hinv hfine
    obtain rfl := some.inj (h.symm.trans h')
    exact (inv_request hs hinv hfine h).2

/-! ## Two creates with one UID -/

/-- Objects as lists of properties. -/
def plainCalcard : Calcard Properties Properties where
  newGroup := []
  intoJscalendar := id
  intoIcalendar := some
  insert group property value := group ++ [(.property property, value)]
  patchJptr _ _ _ := none
  timeZone _ := none
  booleanSet object := object.filterMap fun e => match e.2 with
    | .bool true => some e.1
    | _ => none
  uids ical := ical.filterMap fun e => match e with
    | (.property .uid, .str uid) => some uid
    | _ => none
  size := List.length
  eventRangeEnd _ := 0
  addAlarms ical _ := ical

def Server.plain : Server Properties Properties where
  cal := plainCalcard
  setMaxObjects := 500
  maxIcalSize := 512000
  itipEnabled := true
  itipOutboundMaxRecipients := 100
  hash e := UInt32.ofNat e.size
  order := .sorted ℕ
  hasAvailableQuota _ _ := true
  itipCreate ical _ := (ical, .ok [])
  itipUpdate ical _ _ := (ical, .ok [])

/-- An account with one calendar. -/
def oneCalendar : Account Properties :=
  ⟨Std.TreeMap.empty.insert 0 ⟨⟨0, []⟩, [], []⟩, ∅, ∅, 0⟩

theorem inv_oneCalendar : Inv plainCalcard.uid oneCalendar where
  unique i j e f u he := by cases (Std.TreeMap.getElem?_emptyc (a := i)).symm.trans he
  linked i e he := by cases (Std.TreeMap.getElem?_emptyc (a := i)).symm.trans he
  indexed value hvalue id := by
    exact iff_of_false (Finset.notMem_empty _) fun h => hvalue h.symm
  fresh i hi := absurd Std.TreeMap.getElem?_emptyc hi

/-- An event in the calendar. -/
def eventWith (uid : String) : EventObject where
  properties :=
    [(.property (.pointer [.key (.property .calendarIds), .key (.property (.idValue ⟨0⟩))]), .bool true),
      (.property .uid, .str uid)]
  randName _ := "name"

/-- The owner creates two events. -/
def createTwo (uid uid' : String) : Action Properties :=
  .set ⟨⟨0, [], [], false⟩, [], true, 0, []⟩
    ⟨⟨0⟩, 2, [("a", eventWith uid), ("b", eventWith uid')], [], [], none⟩

theorem uids_createTwo :
    Run.Always (step .plain) (Sound plainCalcard.uid) oneCalendar [createTwo "u" "v"] ∧
      Run.Each (step .plain) (fun a x => ∀ b, step .plain a x = some b → SameUids plainCalcard.uid a b) oneCalendar
        [createTwo "u" "v"] := by
  refine uids_run ⟨fun _ _ => rfl, fun _ _ _ => rfl⟩ inv_oneCalendar ((Run.each_cons rfl).mpr ⟨⟨⟨?_, ?_⟩, nofun⟩, trivial⟩)
  · refine pairwise_cons.mpr ⟨fun y hy u hu hu' => ?_, pairwise_singleton _ _⟩
    obtain rfl := mem_singleton.mp hy
    exact absurd (hu.trans hu'.symm) (by decide)
  · intro _ _ _ i e he
    cases (Std.TreeMap.getElem?_emptyc (a := i)).symm.trans he

theorem createTwo_collide :
    ¬ (Run.Always (step .plain) (Sound plainCalcard.uid) oneCalendar [createTwo "u" "u"] ∧
      Run.Each (step .plain) (fun a x => ∀ b, step .plain a x = some b → SameUids plainCalcard.uid a b) oneCalendar
        [createTwo "u" "u"]) := by
  rintro ⟨h, -⟩
  exact absurd ((h.last rfl).unique 0 1 _ _ "u" rfl rfl rfl rfl) (by decide)

end MailServer.Jmap.CalendarEvent
