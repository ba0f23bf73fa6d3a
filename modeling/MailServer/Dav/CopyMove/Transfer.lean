import MailServer.Dav.CopyMove.Calendar
import MailServer.Dav.CopyMove.Edits

/-!
# Copies and moves of events

What a request does to the names of events: copies get names at the destination, the names of the originals go if they are
moved, and so do those of events that are overwritten.

* `Copy`: an event with its name in the source, and the document and the name that are its copy.
* `done_of_edits`: a request that does it to the names.
-/

namespace MailServer.Dav.CopyMove

open MailServer.Common MailServer.Utils MailServer.Groupware MailServer.Lib List Account

variable {I : Type}

structure Copy (I : Type) where
  source : ℕ
  sourceName : DavName
  event : CalendarEvent I
  target : ℕ
  targetName : DavName

/-- The items of a path: the one that it is of, or all those of the calendar. -/
def Path.covers (p : Path) (name : String) : Prop := p.item = none ∨ p.item = some name

/-- **What a request should do.** -/
structure Done (r : Request) (s s' : Accounts I) : Prop where
  consistent : ∀ accountId, Consistent (s' accountId)
  /-- events that are moved are found below the destination -/
  moved : r.isMove = true → ∀ name ev, r.fromPath.covers name → (s r.fromAccountId).Reaches r.fromPath.calendar name ev →
    (s' r.toAccountId).Reaches r.toPath.calendar (r.toPath.item.getD name) ev
  /-- and nothing is at the path that they were moved from -/
  gone : r.isMove = true → (s' r.fromAccountId).byPath r.fromPath = none
  /-- the source of a copy is unchanged -/
  copied : r.isMove = false → (∀ name ev, r.fromPath.covers name →
      ((s' r.fromAccountId).Reaches r.fromPath.calendar name ev ↔ (s r.fromAccountId).Reaches r.fromPath.calendar name ev)) ∧
    ∀ (id : ℕ) (c : Calendar), c.name = r.fromPath.calendar →
      ((s' r.fromAccountId).calendars[id]? = some c ↔ (s r.fromAccountId).calendars[id]? = some c)
  /-- events stay in other calendars -/
  links : ∀ accountId calendar, (accountId, calendar) ≠ (r.fromAccountId, r.fromPath.calendar) →
    (accountId, calendar) ≠ (r.toAccountId, r.toPath.calendar) → ∀ name ev,
      ((s' accountId).Reaches calendar name ev ↔ (s accountId).Reaches calendar name ev)
  /-- events of the destination are gone from it -/
  overwritten : ∀ id n calendarId, (s r.toAccountId).isNamed calendarId r.toPath.calendar = true →
    ⟨n, calendarId⟩ ∈ (s r.toAccountId).names id → r.toPath.covers n →
      ∀ calendarId', (s' r.toAccountId).isNamed calendarId' r.toPath.calendar = true →
        ∀ n', ⟨n', calendarId'⟩ ∉ (s' r.toAccountId).names id

section

variable (r : Request) (s s' : Accounts I) (copies : List (Copy I)) (overwritten : List ℕ) (fromCalendarId toCalendarId : ℕ)

/-- Names that stay: not those of originals that are moved, nor those of overwritten events in the calendar. -/
def kept (accountId : UInt32) (id : ℕ) (n : DavName) : Bool :=
  !(r.isMove && accountId == r.fromAccountId && copies.any fun c => c.source == id && c.sourceName == n) &&
    !(accountId == r.toAccountId && overwritten.contains id && n.parentId == toCalendarId)

def added (accountId : UInt32) (id : ℕ) : Option (DavName × I) :=
  if accountId = r.toAccountId then
    (copies.find? fun c => c.target == id).map fun c => (c.targetName, c.event.event)
  else none

/-- Events of the source, with names and documents that the destination has not. -/
structure Copies : Prop where
  event : ∀ c ∈ copies, (s r.fromAccountId).events[c.source]? = some c.event
  name : ∀ c ∈ copies, c.sourceName ∈ c.event.names ∧ c.sourceName.parentId = fromCalendarId
  target : ∀ c ∈ copies, c.targetName.parentId = toCalendarId ∧
    if r.fromAccountId = r.toAccountId then c.target = c.source else (s r.toAccountId).events[c.target]? = none
  sources : (copies.map Copy.source).Nodup
  targets : (copies.map Copy.target).Nodup
  names : (copies.map Copy.targetName).Nodup
  vacated : ∀ c ∈ copies, ∀ id, c.targetName ∈ (s r.toAccountId).names id → id ∈ overwritten

/-- An event that stays in its account has no other name in the destination. -/
def Single : Prop :=
  r.fromAccountId = r.toAccountId → ∀ c ∈ copies, ∀ m ∈ c.event.names, m.parentId = toCalendarId →
    r.isMove = true ∧ m = c.sourceName

/-- Where the calendars are, before and after. -/
structure Places : Prop where
  source : (s r.fromAccountId).isNamed fromCalendarId r.fromPath.calendar = true
  dest : (s' r.toAccountId).isNamed toCalendarId r.toPath.calendar = true
  covered : r.isMove = true → ∀ name id, r.fromPath.covers name → ⟨name, fromCalendarId⟩ ∈ (s r.fromAccountId).names id →
    ∃ c ∈ copies, c.source = id ∧ c.sourceName = ⟨name, fromCalendarId⟩ ∧
      c.targetName = ⟨r.toPath.item.getD name, toCalendarId⟩
  gone : r.isMove = true → ∀ id, (s' r.fromAccountId).isNamed id r.fromPath.calendar = true →
    id = fromCalendarId ∧ r.fromPath.item ≠ none
  apart : r.fromAccountId = r.toAccountId → ∀ name, r.fromPath.covers name → ∀ c ∈ copies,
    c.targetName ≠ ⟨name, fromCalendarId⟩
  stays : r.isMove = false → ∀ (id : ℕ) (c : Calendar), c.name = r.fromPath.calendar →
    ((s' r.fromAccountId).calendars[id]? = some c ↔ (s r.fromAccountId).calendars[id]? = some c)
  safe : r.isMove = false → r.fromAccountId = r.toAccountId → ∀ name id, r.fromPath.covers name →
    ⟨name, fromCalendarId⟩ ∈ (s r.fromAccountId).names id → fromCalendarId = toCalendarId → id ∉ overwritten
  other : ∀ accountId calendar, (accountId, calendar) ≠ (r.fromAccountId, r.fromPath.calendar) →
    (accountId, calendar) ≠ (r.toAccountId, r.toPath.calendar) → ∀ id,
      (s' accountId).isNamed id calendar = (s accountId).isNamed id calendar
  vacated : ∀ id n calendarId, (s r.toAccountId).isNamed calendarId r.toPath.calendar = true →
    ⟨n, calendarId⟩ ∈ (s r.toAccountId).names id → r.toPath.covers n →
      calendarId = toCalendarId ∧ id ∈ overwritten ∧ ∀ c ∈ copies, c.target ≠ id

end

section

variable {r : Request} {s s' : Accounts I} {copies : List (Copy I)} {overwritten : List ℕ} {fromCalendarId toCalendarId : ℕ}

variable {accountId : UInt32} {id : ℕ} {n : DavName} {c : Copy I} {h : ArchiveHash I}
  {ops : List (Op I)}

theorem kept_eq_false :
    kept r copies overwritten toCalendarId accountId id n = false ↔
      (r.isMove = true ∧ accountId = r.fromAccountId ∧ ∃ c ∈ copies, c.source = id ∧ c.sourceName = n) ∨
        accountId = r.toAccountId ∧ id ∈ overwritten ∧ n.parentId = toCalendarId := by
  unfold kept
  rw [Bool.and_eq_false_iff, Bool.not_eq_false', Bool.not_eq_false']
  simp [and_assoc]

theorem kept_iff :
    kept r copies overwritten toCalendarId accountId id n = true ↔
      ¬ ((r.isMove = true ∧ accountId = r.fromAccountId ∧ ∃ c ∈ copies, c.source = id ∧ c.sourceName = n) ∨
        accountId = r.toAccountId ∧ id ∈ overwritten ∧ n.parentId = toCalendarId) := by
  rw [← kept_eq_false, Bool.not_eq_false]

section

variable (hc : Copies r s copies overwritten fromCalendarId toCalendarId)
include hc

theorem added_eq_some {ev : I} :
    added r copies accountId id = some (n, ev) ↔
      accountId = r.toAccountId ∧ ∃ c ∈ copies, c.target = id ∧ c.targetName = n ∧ c.event.event = ev := by
  unfold added
  split_ifs with hto
  · rw [Option.map_eq_some_iff, and_iff_right hto]
    constructor
    · rintro ⟨c, hfind, heq⟩
      obtain ⟨rfl, rfl⟩ := Prod.mk.inj heq
      exact ⟨c, mem_of_find?_eq_some hfind, beq_iff_eq.mp (find?_some hfind : _), rfl, rfl⟩
    · rintro ⟨c, hmem, rfl, rfl, rfl⟩
      cases hfind : copies.find? fun c' => c'.target == c.target with
      | none => exact absurd (beq_self_eq_true _) (find?_eq_none.mp hfind c hmem)
      | some c' =>
        have heq : c'.target = c.target := beq_iff_eq.mp (find?_some hfind : _)
        obtain rfl := inj_on_of_nodup_map hc.targets (mem_of_find?_eq_some hfind) hmem heq
        exact ⟨c', rfl, rfl⟩
  · exact iff_of_false nofun fun h => hto h.1

theorem Copies.original
    (hmem : c ∈ copies) (hne : (s r.toAccountId).names c.target ≠ []) :
    r.fromAccountId = r.toAccountId ∧ (s r.toAccountId).events[c.target]? = some c.event := by
  obtain ⟨-, htarget⟩ := hc.target c hmem
  split_ifs at htarget with heq
  · rw [htarget, ← heq]
    exact ⟨rfl, hc.event c hmem⟩
  · exact absurd (names_of_none htarget) hne

/-- **Copies leave the names consistent.** -/
theorem consistent_of_edits
    (hsingle : Single r copies toCalendarId) (ha : Consistent (s accountId))
    (he : Edits (s accountId) (s' accountId) (kept r copies overwritten toCalendarId accountId) (added r copies accountId))
    (hexist : ∀ id, ∀ n ∈ (s' accountId).names id, ∃ c, (s' accountId).calendars[n.parentId]? = some c)
    (hnamed : ∀ (id id' : ℕ) (c c' : Calendar), (s' accountId).calendars[id]? = some c →
      (s' accountId).calendars[id']? = some c' → c.name = c'.name → id = id') : Consistent (s' accountId) := by
  refine he.consistent ha (fun id id' n ev ev' h h' => ?_) (fun id n ev h id' hn => ?_) (fun id n ev h m hm heq => ?_) hexist
    hnamed
  · obtain ⟨-, c, hmem, rfl, rfl, -⟩ := (added_eq_some hc).mp h
    obtain ⟨-, c', hmem', rfl, hname, -⟩ := (added_eq_some hc).mp h'
    rw [inj_on_of_nodup_map hc.names hmem' hmem hname]
  · obtain ⟨hto, c, hmem, -, rfl, -⟩ := (added_eq_some hc).mp h
    rw [hto] at hn
    exact kept_eq_false.2 (.inr ⟨hto, hc.vacated c hmem id' hn, (hc.target c hmem).1⟩)
  · obtain ⟨hto, c, hmem, rfl, rfl, -⟩ := (added_eq_some hc).mp h
    rw [hto] at hm
    obtain ⟨hsame, hevent⟩ := hc.original hmem (ne_nil_of_mem hm)
    rw [names_eq hevent] at hm
    obtain ⟨hmove, rfl⟩ := hsingle hsame c hmem m hm (heq.trans (hc.target c hmem).1)
    have htarget := (hc.target c hmem).2
    rw [if_pos hsame] at htarget
    exact kept_eq_false.2 (.inl ⟨hmove, hto.trans hsame.symm, c, hmem, htarget.symm, rfl⟩)

theorem single_of_consistent
    (hapart : ∀ c ∈ copies, c.target ∉ overwritten)
    (he : Edits (s r.toAccountId) (s' r.toAccountId) (kept r copies overwritten toCalendarId r.toAccountId)
      (added r copies r.toAccountId))
    (hs' : Consistent (s' r.toAccountId)) : Single r copies toCalendarId := by
  intro hsame c hmem m hm hparent
  have htarget := hc.target c hmem
  rw [if_pos hsame] at htarget
  have hnames : (s r.toAccountId).names c.target = c.event.names := by
    rw [htarget.2, ← hsame]
    exact names_eq (hc.event c hmem)
  by_contra hother
  have hkept : kept r copies overwritten toCalendarId r.toAccountId c.target m = true := by
    rw [kept_iff]
    rintro (⟨hmove, -, c', hmem', hsource, rfl⟩ | ⟨-, hover, -⟩)
    · rw [htarget.2] at hsource
      rw [inj_on_of_nodup_map hc.sources hmem' hmem hsource] at hother
      exact hother ⟨hmove, rfl⟩
    · exact hapart c hmem hover
  have hadd := (added_eq_some hc).mpr ⟨rfl, c, hmem, rfl, rfl, rfl⟩
  have honce := (((he.names c.target).map DavName.parentId).nodup_iff).mp (hs'.once c.target)
  rw [hadd, map_append, nodup_append] at honce
  refine honce.2.2 m.parentId (mem_map_of_mem (mem_filter.mpr ⟨hnames ▸ hm, hkept⟩)) c.targetName.parentId
    (mem_map_of_mem (mem_singleton.mpr rfl)) ?_
  rw [hparent, htarget.1]

theorem content_of_added {ev : I}
    (h : added r copies accountId id = some (n, ev)) (hne : (s accountId).names id ≠ []) :
    (s accountId).content id = some ev := by
  obtain ⟨hto, c, hmem, rfl, -, rfl⟩ := (added_eq_some hc).mp h
  rw [hto] at hne ⊢
  exact content_eq (hc.original hmem hne).2

end

/-- **What a request should do**, from what it does to the names and where the calendars are. -/
theorem done_of_edits (hs : ∀ accountId, Consistent (s accountId)) (hs' : ∀ accountId, Consistent (s' accountId))
    (hc : Copies r s copies overwritten fromCalendarId toCalendarId)
    (hp : Places r s s' copies overwritten fromCalendarId toCalendarId)
    (he : ∀ accountId, Edits (s accountId) (s' accountId) (kept r copies overwritten toCalendarId accountId)
      (added r copies accountId)) : Done r s s' := by
  have hreach (accountId : UInt32) (calendar name : String) (ev : I) : (s' accountId).Reaches calendar name ev ↔ _ :=
    (he accountId).reaches_iff fun id n ev h hne => content_of_added hc h hne
  refine ⟨hs', fun hmove name ev hcovers h => ?_, fun hmove => ?_, fun hcopy => ⟨fun name ev hcovers => ?_, hp.stays hcopy⟩,
    fun accountId calendar hfrom hto name ev => ?_, fun id n calendarId hnamed hn hcovers calendarId' hnamed' n' hn' => ?_⟩
  · obtain ⟨id, calendarId, hn, hnamed, hev⟩ := h
    obtain rfl := (hs _).eq_of_isNamed hnamed hp.source
    obtain ⟨c, hmem, rfl, hname, htarget⟩ := hp.covered hmove name id hcovers hn
    rw [content_eq (hc.event c hmem)] at hev
    refine (hreach _ _ _ _).mpr ⟨c.target, toCalendarId, hp.dest, .inr ((added_eq_some hc).mpr ?_)⟩
    exact ⟨rfl, c, hmem, rfl, htarget, Option.some.inj hev⟩
  · rcases hpath : r.fromPath with ⟨calendar, _ | item⟩
    · refine byPath_calendar_none.mpr fun id => ?_
      rw [← Bool.not_eq_true]
      intro hnamed
      refine (hp.gone hmove id ?_).2 (by rw [hpath])
      rw [hpath]
      exact hnamed
    · refine byPath_item_none.mpr fun id calendarId hnamed hn => ?_
      have hcovers : r.fromPath.covers item := .inr (by rw [hpath])
      obtain ⟨rfl, -⟩ := hp.gone hmove calendarId (by rw [hpath]; exact hnamed)
      rcases (he _).mem.mp hn with ⟨hn, hkeep⟩ | ⟨ev, hadd⟩
      · obtain ⟨c, hmem, hsource, hname, -⟩ := hp.covered hmove item id hcovers hn
        rw [kept_eq_false.2 (.inl ⟨hmove, rfl, c, hmem, hsource, hname⟩)] at hkeep
        cases hkeep
      · obtain ⟨hto, c, hmem, -, htarget, -⟩ := (added_eq_some hc).mp hadd
        exact hp.apart hto item hcovers c hmem htarget
  · have hnamed (id : ℕ) : (s' r.fromAccountId).isNamed id r.fromPath.calendar = true ↔
        (s r.fromAccountId).isNamed id r.fromPath.calendar = true := by
      rw [isNamed_iff, isNamed_iff]
      exact exists_congr fun c => and_congr_left fun hname => hp.stays hcopy id c hname
    rw [hreach]
    constructor
    · rintro ⟨id, calendarId, hid, ⟨hn, -, hev⟩ | hadd⟩
      · exact ⟨id, calendarId, hn, (hnamed _).mp hid, hev⟩
      · obtain ⟨hto, c, hmem, -, htarget, -⟩ := (added_eq_some hc).mp hadd
        obtain rfl := (hs _).eq_of_isNamed ((hnamed _).mp hid) hp.source
        exact absurd htarget (hp.apart hto name hcovers c hmem)
    · rintro ⟨id, calendarId, hn, hid, hev⟩
      refine ⟨id, calendarId, (hnamed _).mpr hid, .inl ⟨hn, ?_, hev⟩⟩
      obtain rfl := (hs _).eq_of_isNamed hid hp.source
      rw [kept_iff]
      rintro (⟨hmove, -⟩ | ⟨hto, hover, hparent⟩)
      · rw [hcopy] at hmove
        cases hmove
      · exact hp.safe hcopy hto name id hcovers hn hparent hover
  · rw [hreach]
    constructor
    · rintro ⟨id, calendarId, hid, ⟨hn, -, hev⟩ | hadd⟩
      · exact ⟨id, calendarId, hn, by rw [← hp.other accountId calendar hfrom hto]; exact hid, hev⟩
      · obtain ⟨rfl, c, hmem, -, htarget, -⟩ := (added_eq_some hc).mp hadd
        have hparent := (hc.target c hmem).1
        rw [htarget] at hparent
        dsimp only at hparent
        rw [hparent] at hid
        exact absurd (by rw [isNamed_inj hid hp.dest]) hto
    · rintro ⟨id, calendarId, hn, hid, hev⟩
      have hid' := hp.other accountId calendar hfrom hto calendarId
      refine ⟨id, calendarId, hid'.trans hid, .inl ⟨hn, ?_, hev⟩⟩
      rw [kept_iff]
      rintro (⟨-, rfl, c, hmem, -, hname⟩ | ⟨rfl, -, hparent⟩)
      · have hparent := (hc.name c hmem).2
        rw [hname] at hparent
        dsimp only at hparent
        rw [hparent] at hid
        exact hfrom (by rw [isNamed_inj hid hp.source])
      · dsimp only at hparent
        rw [hid, hparent] at hid'
        exact hto (by rw [isNamed_inj hid' hp.dest])
  · obtain ⟨rfl, hover, hnot⟩ := hp.vacated id n calendarId hnamed hn hcovers
    obtain rfl := (hs' _).eq_of_isNamed hnamed' hp.dest
    rcases (he _).mem.mp hn' with ⟨-, hkeep⟩ | ⟨ev, hadd⟩
    · exact absurd hkeep (by rw [Bool.not_eq_true]; exact kept_eq_false.2 (.inr ⟨rfl, hover, rfl⟩))
    · obtain ⟨-, c, hmem, htarget, -⟩ := (added_eq_some hc).mp hadd
      exact hnot c hmem htarget

/-! ## Writes -/

/-- An event without its name in a calendar, or none when it has no other. -/
structure IsDelete (event : CalendarEvent I) (calendarId : ℕ) (changes : Option (CalendarEvent I)) : Prop where
  names : ((changes.map CalendarEvent.names).getD []).Perm (event.names.filter fun n => n.parentId ≠ calendarId)
  event : ∀ e, changes = some e → e.event = event.event

/-- The copy of an event: within an account the event keeps its names, unless it is moved. -/
structure IsCopy (r : Request) (c : Copy I) (changes : Option (CalendarEvent I)) : Prop where
  names : ((changes.map CalendarEvent.names).getD []).Perm
    ((if r.fromAccountId = r.toAccountId then
      c.event.names.filter fun n => ¬ (r.isMove = true ∧ n.parentId = c.sourceName.parentId) else []) ++ [c.targetName])
  event : ∀ e, changes = some e → e.event = c.event.event

/-- What a batch writes of the events. -/
structure Writes (h : ArchiveHash I) (r : Request) (s : Accounts I) (ops : List (Op I)) (copies : List (Copy I))
    (overwritten : List ℕ) (toCalendarId : ℕ) : Prop where
  dest : ∀ id changes, (id, changes) ∈ (events h r.toAccountId).writes ops →
    (∃ c ∈ copies, c.target = id ∧ IsCopy r c changes) ∨
      id ∈ overwritten ∧ ∃ event, (s r.toAccountId).events[id]? = some event ∧ IsDelete event toCalendarId changes
  copied : ∀ c ∈ copies, c.target ∈ ((events h r.toAccountId).writes ops).map Prod.fst
  deleted : ∀ id ∈ overwritten, ∀ n ∈ (s r.toAccountId).names id, n.parentId = toCalendarId →
    id ∈ ((events h r.toAccountId).writes ops).map Prod.fst
  source : r.fromAccountId ≠ r.toAccountId → ∀ id changes, (id, changes) ∈ (events h r.fromAccountId).writes ops →
    r.isMove = true ∧ ∃ c ∈ copies, c.source = id ∧ IsDelete c.event c.sourceName.parentId changes
  moved : r.fromAccountId ≠ r.toAccountId → r.isMove = true → ∀ c ∈ copies,
    c.source ∈ ((events h r.fromAccountId).writes ops).map Prod.fst
  other : ∀ accountId, accountId ≠ r.fromAccountId → accountId ≠ r.toAccountId → (events h accountId).writes ops = []
  nodup : ∀ accountId, (((events h accountId).writes ops).map Prod.fst).Nodup
  apart : ∀ c ∈ copies, c.target ∉ overwritten

theorem eq_of_parentId {names : List DavName} (hnodup : (names.map DavName.parentId).Nodup)
    {m : DavName} (hn : n ∈ names) (hm : m ∈ names) : n.parentId = m.parentId ↔ n = m :=
  ⟨fun heq => inj_on_of_nodup_map hnodup hn hm heq, fun heq => by rw [heq]⟩

theorem Copies.source_names (hc : Copies r s copies overwritten fromCalendarId toCalendarId)
    (hs : ∀ accountId, Consistent (s accountId)) (hmem : c ∈ copies) (hn : n ∈ c.event.names) :
    n.parentId = c.sourceName.parentId ↔ n = c.sourceName := by
  have hnodup := (hs r.fromAccountId).once c.source
  rw [names_eq (hc.event c hmem)] at hnodup
  exact eq_of_parentId hnodup hn (hc.name c hmem).1

theorem Copies.source_iff (hc : Copies r s copies overwritten fromCalendarId toCalendarId)
    (hmem : c ∈ copies) : (∃ c' ∈ copies, c'.source = c.source ∧ c'.sourceName = n) ↔ n = c.sourceName := by
  constructor
  · rintro ⟨c', hmem', hsource, rfl⟩
    rw [inj_on_of_nodup_map hc.sources hmem' hmem hsource]
  · rintro rfl
    exact ⟨c, hmem, rfl, rfl⟩

section

variable {h : ArchiveHash I} {ops : List (Op I)}

theorem kept_copy (hs : ∀ accountId, Consistent (s accountId))
    (hc : Copies r s copies overwritten fromCalendarId toCalendarId) (hw : Writes h r s ops copies overwritten toCalendarId)
    {c : Copy I} (hmem : c ∈ copies) :
    (if r.fromAccountId = r.toAccountId then
        c.event.names.filter fun n => ¬ (r.isMove = true ∧ n.parentId = c.sourceName.parentId) else []) =
      ((s r.toAccountId).names c.target).filter (kept r copies overwritten toCalendarId r.toAccountId c.target) := by
  have htarget := (hc.target c hmem).2
  split_ifs at htarget ⊢ with hsame
  · have hevent := hc.event c hmem
    rw [hsame] at hevent
    rw [htarget, names_eq hevent]
    refine filter_congr fun n hn => ?_
    rw [Bool.eq_iff_iff, decide_eq_true_iff, kept_iff, hc.source_names hs hmem hn,
      hc.source_iff hmem, and_iff_right hsame.symm, or_iff_left]
    rintro ⟨-, hover, -⟩
    exact hw.apart c hmem (htarget ▸ hover)
  · rw [names_of_none htarget]
    rfl

theorem kept_overwritten (hc : Copies r s copies overwritten fromCalendarId toCalendarId)
    (hw : Writes h r s ops copies overwritten toCalendarId) {id : ℕ} (hover : id ∈ overwritten) (names : List DavName) :
    names.filter (fun n => n.parentId ≠ toCalendarId) =
      names.filter (kept r copies overwritten toCalendarId r.toAccountId id) := by
  refine filter_congr fun n _ => ?_
  rw [Bool.eq_iff_iff, decide_eq_true_iff, kept_iff, and_iff_right rfl, and_iff_right hover,
    or_iff_right]
  rintro ⟨-, hsame, c, hmem, rfl, -⟩
  have htarget := (hc.target c hmem).2
  rw [if_pos hsame.symm] at htarget
  exact hw.apart c hmem (htarget ▸ hover)

theorem kept_moved (hs : ∀ accountId, Consistent (s accountId))
    (hc : Copies r s copies overwritten fromCalendarId toCalendarId) (hto : r.fromAccountId ≠ r.toAccountId)
    (hmove : r.isMove = true) {c : Copy I} (hmem : c ∈ copies) :
    c.event.names.filter (fun n => n.parentId ≠ c.sourceName.parentId) =
      c.event.names.filter (kept r copies overwritten toCalendarId r.fromAccountId c.source) := by
  refine filter_congr fun n hn => ?_
  rw [Bool.eq_iff_iff, decide_eq_true_iff, kept_iff, and_iff_right hmove, and_iff_right rfl,
    hc.source_iff hmem, ne_eq, hc.source_names hs hmem hn, or_iff_left]
  exact fun h => hto h.1

end

theorem edits_of_mem (hs : ∀ accountId, Consistent (s accountId))
    (hc : Copies r s copies overwritten fromCalendarId toCalendarId)
    (hw : Writes h r s ops copies overwritten toCalendarId) {changes : Option (CalendarEvent I)}
    (hmem : (id, changes) ∈ (events h accountId).writes ops) :
    ((changes.map CalendarEvent.names).getD []).Perm
        (((s accountId).names id).filter (kept r copies overwritten toCalendarId accountId id) ++
          ((added r copies accountId id).map Prod.fst).toList) ∧
      ∀ e, changes = some e → some e.event = ((added r copies accountId id).map Prod.snd).or ((s accountId).content id) := by
  by_cases hto : accountId = r.toAccountId
  · subst hto
    rcases hw.dest id changes hmem with ⟨c, hcopy, rfl, hnames, hevent⟩ | ⟨hover, event, hevent, hnames, hcontent⟩
    · have hadd := (added_eq_some hc).mpr ⟨rfl, c, hcopy, rfl, rfl, rfl⟩
      rw [hadd, ← kept_copy hs hc hw hcopy]
      exact ⟨hnames, fun e he => by rw [hevent e he]; rfl⟩
    · have hadd : added r copies r.toAccountId id = none := by
        cases hadd : added r copies r.toAccountId id with
        | none => rfl
        | some e =>
          obtain ⟨-, c, hcopy, rfl, -⟩ := (added_eq_some hc).mp hadd
          exact absurd hover (hw.apart c hcopy)
      rw [hadd, names_eq hevent, content_eq hevent, ← kept_overwritten hc hw hover]
      exact ⟨hnames.trans (List.Perm.of_eq (append_nil _).symm), fun e he => by rw [hcontent e he]; rfl⟩
  · have hadd : added r copies accountId id = none := if_neg hto
    rw [hadd]
    by_cases hfrom : accountId = r.fromAccountId
    · subst hfrom
      obtain ⟨hmove, c, hcopy, rfl, hnames, hevent⟩ := hw.source hto id changes hmem
      rw [names_eq (hc.event c hcopy), content_eq (hc.event c hcopy), ← kept_moved hs hc hto hmove hcopy]
      exact ⟨hnames.trans (List.Perm.of_eq (append_nil _).symm), fun e he => by rw [hevent e he]; rfl⟩
    · rw [hw.other accountId hfrom hto] at hmem
      cases hmem

theorem edits_of_notMem (hc : Copies r s copies overwritten fromCalendarId toCalendarId)
    (hw : Writes h r s ops copies overwritten toCalendarId)
    (hnot : id ∉ ((events h accountId).writes ops).map Prod.fst) :
    added r copies accountId id = none ∧
      ∀ n ∈ (s accountId).names id, kept r copies overwritten toCalendarId accountId id n = true := by
  constructor
  · cases hadd : added r copies accountId id with
    | none => rfl
    | some e =>
      obtain ⟨rfl, c, hcopy, rfl, -⟩ := (added_eq_some hc).mp hadd
      exact absurd (hw.copied c hcopy) hnot
  · intro n hn
    rw [kept_iff]
    rintro (⟨hmove, rfl, c, hcopy, rfl, -⟩ | ⟨rfl, hover, hparent⟩)
    · by_cases hsame : r.fromAccountId = r.toAccountId
      · have htarget := (hc.target c hcopy).2
        rw [if_pos hsame] at htarget
        rw [hsame, ← htarget] at hnot
        exact hnot (hw.copied c hcopy)
      · exact hnot (hw.moved hsame hmove c hcopy)
    · exact hnot (hw.deleted id hover n hn hparent)

theorem edits_of_writes {s₁ : Accounts I} (hok : applyAll (apply h) ops s₁ = some s')
    (hsame : ∀ accountId, (s₁ accountId).events = (s accountId).events)
    (hs : ∀ accountId, Consistent (s accountId))
    (hc : Copies r s copies overwritten fromCalendarId toCalendarId)
    (hw : Writes h r s ops copies overwritten toCalendarId) (accountId : UInt32) :
    Edits (s accountId) (s' accountId) (kept r copies overwritten toCalendarId accountId) (added r copies accountId) := by
  have hnames (a : UInt32) (id : ℕ) : (s₁ a).names id = (s a).names id := by
    unfold names
    rw [hsame]
  have hcontent (a : UInt32) (id : ℕ) : (s₁ a).content id = (s a).content id := by
    unfold content
    rw [hsame]
  have hedits : Edits (s₁ accountId) (s' accountId) (kept r copies overwritten toCalendarId accountId)
      (added r copies accountId) := by
    refine edits_of_applyAll hok (hw.nodup accountId) (fun id changes hmem => ?_) (fun id hnot => ?_)
    · rw [hnames, hcontent]
      exact edits_of_mem hs hc hw hmem
    · rw [hnames]
      exact edits_of_notMem hc hw hnot
  refine ⟨fun id => ?_, fun id hne => ?_⟩
  · rw [← hnames]
    exact hedits.names id
  · rw [← hcontent]
    exact hedits.content id hne

end

end MailServer.Dav.CopyMove
