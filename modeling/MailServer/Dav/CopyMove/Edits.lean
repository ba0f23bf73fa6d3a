import MailServer.Common.Archives
import MailServer.Dav.CopyMove.Resources

/-!
# Names that are added and dropped

* `Edits`: events of an account keep some of their names, and some get a name.
* `edits_of_applyAll`: a batch that does so.
* `Edits.consistent`, `Edits.reaches_iff`: what comes of it.
-/

namespace MailServer.Dav.CopyMove

open MailServer.Common MailServer.Utils MailServer.Groupware MailServer.Lib MailServer.Email List Option

variable {I : Type}

/-! ## Archives -/

section

variable (h : ArchiveHash I) (accountId : UInt32)

/-- The events of an account. -/
def events : Archives (apply h) h.event where
  docs s := (s accountId).events
  write
    | .event a id current changes => if a = accountId then some (id, current, changes) else none
    | .calendar .. => none
  of_write s w s' id current changes hw hwrite := by
    cases w with
    | calendar => cases hwrite
    | event a id' current' changes' =>
      dsimp only at hwrite
      split_ifs at hwrite with heq
      obtain ⟨rfl, rfl, rfl⟩ : id' = id ∧ current' = current ∧ changes' = changes := by simpa using hwrite
      obtain ⟨m, hm, rfl⟩ := map_eq_some_iff.mp hw
      rw [heq] at hm ⊢
      rw [Function.update_self]
      exact hm
  of_none s w s' hw hwrite := by
    cases w with
    | calendar a id current changes =>
      obtain ⟨m, hm, rfl⟩ := map_eq_some_iff.mp hw
      rw [Function.update_apply]
      split_ifs with heq
      · rw [heq]
      · rfl
    | event a id current changes =>
      dsimp only at hwrite
      split_ifs at hwrite with heq
      obtain ⟨m, hm, rfl⟩ := map_eq_some_iff.mp hw
      rw [Function.update_of_ne (Ne.symm heq)]

/-- The calendars of an account. -/
def calendars : Archives (apply h) h.calendar where
  docs s := (s accountId).calendars
  write
    | .calendar a id current changes => if a = accountId then some (id, current, changes) else none
    | .event .. => none
  of_write s w s' id current changes hw hwrite := by
    cases w with
    | event => cases hwrite
    | calendar a id' current' changes' =>
      dsimp only at hwrite
      split_ifs at hwrite with heq
      obtain ⟨rfl, rfl, rfl⟩ : id' = id ∧ current' = current ∧ changes' = changes := by simpa using hwrite
      obtain ⟨m, hm, rfl⟩ := map_eq_some_iff.mp hw
      rw [heq] at hm ⊢
      rw [Function.update_self]
      exact hm
  of_none s w s' hw hwrite := by
    cases w with
    | event a id current changes =>
      obtain ⟨m, hm, rfl⟩ := map_eq_some_iff.mp hw
      rw [Function.update_apply]
      split_ifs with heq
      · rw [heq]
      · rfl
    | calendar a id current changes =>
      dsimp only at hwrite
      split_ifs at hwrite with heq
      obtain ⟨m, hm, rfl⟩ := map_eq_some_iff.mp hw
      rw [Function.update_of_ne (Ne.symm heq)]

end

/-! ## Lists of names -/

theorem swapRemove_perm {α : Type*} {l : List α} {i : ℕ} {x : α} (h : l[i]? = some x) : (x :: swapRemove l i).Perm l := by
  rcases eq_nil_or_concat l with rfl | ⟨init, y, rfl⟩
  · cases h
  rw [concat_eq_append] at *
  have hremove : swapRemove (init ++ [y]) i = ((init ++ [y]).set i y).dropLast := by
    unfold swapRemove
    rw [getLast?_concat]
  rw [hremove]
  by_cases hlast : i < init.length
  · rw [getElem?_append_left hlast] at h
    obtain ⟨_, hx⟩ := List.getElem?_eq_some_iff.mp h
    have hinit : init = init.take i ++ x :: init.drop (i + 1) := by
      rw [← hx, getElem_cons_drop, take_append_drop]
    rw [set_append_left _ _ hlast, dropLast_concat, set_eq_take_append_cons_drop, if_pos hlast]
    calc (x :: (init.take i ++ y :: init.drop (i + 1))).Perm (x :: y :: (init.take i ++ init.drop (i + 1))) :=
          perm_middle.cons x
      _ |>.Perm (y :: (init.take i ++ x :: init.drop (i + 1))) :=
          (List.Perm.swap y x _).trans (perm_middle.symm.cons y)
      _ |>.Perm (init ++ [y]) := by
          rw [← hinit]
          exact (perm_append_singleton y init).symm
  · have hlen := (List.getElem?_eq_some_iff.mp h).1
    have heq : i = init.length := by
      rw [length_append, length_singleton] at hlen
      omega
    subst heq
    rw [getElem?_concat_length] at h
    obtain rfl := some.inj h
    rw [set_append_right _ _ le_rfl, Nat.sub_self, set_cons_zero, dropLast_concat]
    exact (perm_append_singleton y init).symm

section

variable {names : List DavName} {calendarId i : ℕ}

theorem getElem?_of_findIdx? (h : names.findIdx? (fun n => n.parentId == calendarId) = some i) :
    ∃ x, names[i]? = some x ∧ x.parentId = calendarId := by
  obtain ⟨hi, hx, -⟩ := findIdx?_eq_some_iff_getElem.mp h
  exact ⟨names[i], getElem?_eq_getElem hi, beq_iff_eq.mp hx⟩

theorem swapRemove_filter (hnodup : (names.map DavName.parentId).Nodup)
    (h : names.findIdx? (fun n => n.parentId == calendarId) = some i) :
    (swapRemove names i).Perm (names.filter fun n => n.parentId ≠ calendarId) := by
  obtain ⟨x, hx, hid⟩ := getElem?_of_findIdx? h
  have hperm := swapRemove_perm hx
  have hnot := (hperm.map DavName.parentId).nodup_iff.mpr hnodup
  rw [map_cons, nodup_cons] at hnot
  have hkeep : (swapRemove names i).filter (fun n => n.parentId ≠ calendarId) = swapRemove names i := by
    refine filter_eq_self.mpr fun n hn => decide_eq_true fun heq => hnot.1 ?_
    rw [hid, ← heq]
    exact List.mem_map_of_mem hn
  have hfilter := hperm.filter fun n => n.parentId ≠ calendarId
  rw [filter_cons_of_neg (by simp [hid]), hkeep] at hfilter
  exact hfilter

end

/-! ## Edits -/

/-- What becomes of the events of an account: names that are kept, and one that is added, with the event that it is for. -/
structure Edits (a a' : Account I) (keep : ℕ → DavName → Bool) (add : ℕ → Option (DavName × I)) : Prop where
  names : ∀ id, (a'.names id).Perm ((a.names id).filter (keep id) ++ ((add id).map Prod.fst).toList)
  content : ∀ id, a'.names id ≠ [] → a'.content id = ((add id).map Prod.snd).or (a.content id)

section

variable {a a' : Account I} {keep : ℕ → DavName → Bool} {add : ℕ → Option (DavName × I)}

theorem Edits.mem (h : Edits a a' keep add) {id : ℕ} {n : DavName} :
    n ∈ a'.names id ↔ (n ∈ a.names id ∧ keep id n = true) ∨ ∃ ev, add id = some (n, ev) := by
  rw [(h.names id).mem_iff, mem_append, mem_filter, mem_toList, map_eq_some_iff]
  refine or_congr_right ⟨?_, ?_⟩
  · rintro ⟨⟨n', ev⟩, hadd, rfl⟩
    exact ⟨ev, hadd⟩
  · rintro ⟨ev, hadd⟩
    exact ⟨(n, ev), hadd, rfl⟩

/-- **Names stay consistent** when what is added is not there, and goes to calendars in which the event has no name. -/
theorem Edits.consistent (h : Edits a a' keep add) (ha : Consistent a)
    (hadd : ∀ id id' n ev ev', add id = some (n, ev) → add id' = some (n, ev') → id = id')
    (hnew : ∀ id n ev, add id = some (n, ev) → ∀ id', n ∈ a.names id' → keep id' n = false)
    (honce : ∀ id n ev, add id = some (n, ev) → ∀ m ∈ a.names id, m.parentId = n.parentId → keep id m = false)
    (hexist : ∀ id, ∀ n ∈ a'.names id, ∃ c, a'.calendars[n.parentId]? = some c)
    (hnamed : ∀ (id id' : ℕ) (c c' : Calendar), a'.calendars[id]? = some c → a'.calendars[id']? = some c' → c.name = c'.name →
      id = id') : Consistent a' := by
  have hnone {id id' : ℕ} {n : DavName} {ev : I} (hn : n ∈ a.names id') (hkeep : keep id' n = true)
      (hev : add id = some (n, ev)) : False := by
    rw [hnew id n ev hev id' hn] at hkeep
    cases hkeep
  refine ⟨fun id id' n hn hn' => ?_, fun id => ?_, hexist, hnamed⟩
  · rcases h.mem.1 hn with ⟨hn, hkeep⟩ | ⟨ev, hev⟩
    · rcases h.mem.1 hn' with ⟨hn', -⟩ | ⟨ev', hev'⟩
      · exact ha.unique id id' n hn hn'
      · exact (hnone hn hkeep hev').elim
    · rcases h.mem.1 hn' with ⟨hn', hkeep⟩ | ⟨ev', hev'⟩
      · exact (hnone hn' hkeep hev).elim
      · exact hadd id id' n ev ev' hev hev'
  · rw [((h.names id).map DavName.parentId).nodup_iff, map_append, nodup_append]
    refine ⟨(ha.once id).sublist (filter_sublist.map _), ?_, ?_⟩
    · cases add id with
      | none => exact nodup_nil
      | some e => exact nodup_singleton _
    · intro x hx y hy heq
      obtain ⟨m, hm, rfl⟩ := List.mem_map.mp hx
      obtain ⟨n, hn, rfl⟩ := List.mem_map.mp hy
      obtain ⟨⟨n', ev⟩, hev, rfl⟩ := map_eq_some_iff.mp (mem_toList.mp hn)
      obtain ⟨hm, hkeep⟩ := mem_filter.mp hm
      rw [honce id n' ev hev m hm heq] at hkeep
      cases hkeep

theorem Edits.reaches_iff (h : Edits a a' keep add)
    (hcontent : ∀ id n ev, add id = some (n, ev) → a.names id ≠ [] → a.content id = some ev) {calendar name : String}
    {ev : I} :
    a'.Reaches calendar name ev ↔ ∃ id calendarId, a'.isNamed calendarId calendar = true ∧
      ((⟨name, calendarId⟩ ∈ a.names id ∧ keep id ⟨name, calendarId⟩ = true ∧ a.content id = some ev) ∨
        add id = some (⟨name, calendarId⟩, ev)) := by
  refine exists_congr fun id => exists_congr fun calendarId => ?_
  constructor
  · rintro ⟨hn, hnamed, hev⟩
    refine ⟨hnamed, ?_⟩
    have hcontent' := h.content id (ne_nil_of_mem hn)
    rw [hev] at hcontent'
    rcases h.mem.1 hn with ⟨hn, hkeep⟩ | ⟨ev', hadd⟩
    · cases hadd : add id with
      | none =>
        rw [hadd] at hcontent'
        exact .inl ⟨hn, hkeep, hcontent'.symm⟩
      | some e =>
        rw [hadd] at hcontent'
        obtain rfl := some.inj hcontent'
        exact .inl ⟨hn, hkeep, hcontent id e.1 e.2 hadd (ne_nil_of_mem hn)⟩
    · rw [hadd] at hcontent'
      obtain rfl := some.inj hcontent'
      exact .inr hadd
  · rintro ⟨hnamed, ⟨hn, hkeep, hev⟩ | hadd⟩
    · have hn' := h.mem.2 (.inl ⟨hn, hkeep⟩)
      refine ⟨hn', hnamed, ?_⟩
      rw [h.content id (ne_nil_of_mem hn')]
      cases hadd : add id with
      | none => exact hev
      | some e =>
        rw [hcontent id e.1 e.2 hadd (ne_nil_of_mem hn)] at hev
        exact hev
    · have hn' := h.mem.2 (.inr ⟨ev, hadd⟩)
      refine ⟨hn', hnamed, ?_⟩
      rw [h.content id (ne_nil_of_mem hn'), hadd]
      rfl

theorem edits_of_applyAll {h : ArchiveHash I} {accountId : UInt32} {ops : List (Op I)} {s s' : Accounts I}
    (hok : applyAll (apply h) ops s = some s')
    (hnodup : (((events h accountId).writes ops).map Prod.fst).Nodup)
    (hwrite : ∀ id changes, (id, changes) ∈ (events h accountId).writes ops →
      ((changes.map CalendarEvent.names).getD []).Perm
        (((s accountId).names id).filter (keep id) ++ ((add id).map Prod.fst).toList) ∧
      ∀ e, changes = some e → some e.event = ((add id).map Prod.snd).or ((s accountId).content id))
    (hrest : ∀ id, id ∉ ((events h accountId).writes ops).map Prod.fst →
      add id = none ∧ ∀ n ∈ (s accountId).names id, keep id n = true) :
    Edits (s accountId) (s' accountId) keep add := by
  have hstored (id : ℕ) : (s' accountId).events[id]? = ((s accountId).events.putAll ((events h accountId).writes ops))[id]? :=
    (events h accountId).getElem?_of_applyAll hok id
  have hat (id : ℕ) (changes : Option (CalendarEvent I)) (hmem : (id, changes) ∈ (events h accountId).writes ops) :
      (s' accountId).events[id]? = changes := by
    rw [hstored]
    exact HashMap.getElem?_putAll_of_mem hnodup hmem
  have hframe (id : ℕ) (hnot : id ∉ ((events h accountId).writes ops).map Prod.fst) :
      (s' accountId).events[id]? = (s accountId).events[id]? := by
    rw [hstored]
    exact HashMap.getElem?_putAll_of_notMem hnot
  refine ⟨fun id => ?_, fun id hne => ?_⟩
  · by_cases hid : id ∈ ((events h accountId).writes ops).map Prod.fst
    · obtain ⟨⟨id, changes⟩, hmem, rfl⟩ := List.mem_map.mp hid
      unfold Account.names
      rw [hat id changes hmem]
      exact (hwrite id changes hmem).1
    · obtain ⟨hnone, hkeep⟩ := hrest id hid
      rw [hnone, filter_eq_self.mpr hkeep]
      unfold Account.names
      rw [hframe id hid]
      exact (append_nil _).symm ▸ List.Perm.refl _
  · by_cases hid : id ∈ ((events h accountId).writes ops).map Prod.fst
    · obtain ⟨⟨id, changes⟩, hmem, rfl⟩ := List.mem_map.mp hid
      unfold Account.names at hne
      rw [hat id changes hmem] at hne
      cases changes with
      | none => exact absurd rfl hne
      | some e =>
        rw [← (hwrite id (some e) hmem).2 e rfl]
        unfold Account.content
        rw [hat id (some e) hmem]
        rfl
    · rw [(hrest id hid).1]
      unfold Account.content
      rw [hframe id hid]
      rfl

end

end MailServer.Dav.CopyMove
